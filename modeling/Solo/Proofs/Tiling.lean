import Solo.Proofs.InStep

/-! Readings tile the text. A reading passes over the blanks at the cursor and then reads a piece of the
text that starts between two characters. The piece is empty at the end of the text only; a token is
written with all of it, and is the longest that could be read there; and the place that is told is where
its first character is found when lines and columns are counted. -/

namespace Solo

namespace Position

theorem behind_of_not_mem {cs : List Char} (h : '\n' ∉ cs) : behind cs = ⟨1, cs.length + 1⟩ := by
  have hall : ∀ c ∈ cs.reverse, decide (c ≠ '\n') = true :=
    fun c hc => decide_eq_true fun he => h (he ▸ List.mem_reverse.1 hc)
  have htake : (cs.reverse ++ []).takeWhile _ = cs.reverse := Scanner.takeWhile_front hall (by simp)
  rw [List.append_nil] at htake
  rw [behind, List.count_eq_zero_of_not_mem h, htake, List.length_reverse]

theorem behind_newline (cs : List Char) :
    behind ('\n' :: cs) = ⟨(behind cs).line + 1, (behind cs).column⟩ := by
  have hlast : (cs.reverse ++ ['\n']).takeWhile (· ≠ '\n') = cs.reverse.takeWhile (· ≠ '\n') := by
    rw [List.takeWhile_append]
    split
    · next hall =>
      rw [(List.takeWhile_prefix _).eq_of_length hall, List.takeWhile_cons_of_neg (by decide),
        List.append_nil]
    · rfl
  rw [behind, behind, List.count_cons_self, List.reverse_cons, hlast]

theorem behind_cons {c : Char} {cs : List Char} (hc : c ≠ '\n') (h : '\n' ∈ cs) :
    behind (c :: cs) = behind cs := by
  have hlast : (cs.reverse ++ [c]).takeWhile (· ≠ '\n') = cs.reverse.takeWhile (· ≠ '\n') := by
    rw [List.takeWhile_append, if_neg]
    intro hlength
    have hall := List.all_takeWhile (p := fun d => decide (d ≠ '\n')) (l := cs.reverse)
    rw [(List.takeWhile_prefix _).eq_of_length hlength] at hall
    have hnewline := List.all_eq_true.1 hall '\n' (List.mem_reverse.2 h)
    exact of_decide_eq_true hnewline rfl
  rw [behind, behind, List.count_cons_of_ne hc, List.reverse_cons, hlast]

/-- The character at a place of a text: its column says which character it is of its line. -/
def charAt? (cs : List Char) (pos : Position) : Option Char :=
  ((cs.splitOn '\n')[pos.line - 1]?).bind (·[pos.column - 1]?)

theorem splitOn_newline (cs : List Char) : ('\n' :: cs).splitOn '\n' = [] :: cs.splitOn '\n' := by
  rw [List.splitOn, List.splitOnP_cons_eq_if_modifyHead, if_pos (by decide), List.splitOn]

theorem splitOn_cons {c : Char} (hc : c ≠ '\n') (cs : List Char) : ∃ first more,
    cs.splitOn '\n' = first :: more ∧ (c :: cs).splitOn '\n' = (c :: first) :: more := by
  obtain ⟨first, more, hlines⟩ := List.exists_cons_of_ne_nil (List.splitOnP_ne_nil (· == '\n') cs)
  refine ⟨first, more, hlines, ?_⟩
  rw [List.splitOn, List.splitOnP_cons_eq_if_modifyHead, if_neg (by simpa using hc), hlines]
  rfl

/-- The place behind `before` is that of the character that comes next. -/
theorem charAt?_behind {c : Char} (hc : c ≠ '\n') (before rest : List Char) :
    charAt? (before ++ c :: rest) (behind before) = some c := by
  induction before with
  | nil =>
    obtain ⟨first, more, -, hlines⟩ := splitOn_cons hc rest
    rw [charAt?, List.nil_append, hlines]
    rfl
  | cons d before ih =>
    rw [charAt?] at ih ⊢
    rw [List.cons_append]
    by_cases hd : d = '\n'
    · rw [hd, behind_newline, splitOn_newline]
      exact ih
    obtain ⟨first, more, hlines, hlines'⟩ := splitOn_cons hd (before ++ c :: rest)
    rw [hlines] at ih
    rw [hlines']
    by_cases hmem : '\n' ∈ before
    · -- a line is ended before `c`, and the new character stands in another one
      obtain ⟨n, hn⟩ := Nat.exists_eq_add_of_le' (List.count_pos_iff.2 hmem)
      have hline : (behind before).line - 1 = n + 1 := by rw [behind, hn]; rfl
      rw [behind_cons hd hmem, hline]
      rw [hline] at ih
      exact ih
    · rw [behind_of_not_mem hmem] at ih
      rw [behind_of_not_mem (by simp [hmem, Ne.symm hd])]
      exact ih

end Position

open Position (behind charAt?)

namespace ByteScanner

open Scanner (isBlank)

section

variable {l : ByteScanner} {s : Scanner} {before : List Char}

/-- At the end of the text nothing changes any more. -/
theorem At.next_end (h : At l s before) (hs : s.rest = []) (hstart : l.start = l.cursor) :
    l.next = some (⟨behind before, .ok .eof⟩, l) := by
  have hpeek := h.peek_nil hs
  have htrim : l.trim = l := by
    rw [trim_eq, run_of_end hpeek]
    rfl
  have hmark : l.mark = l := congrArg (fun start => { l with start }) hstart.symm
  have hposition : l.position? = some (behind before) := by
    rw [ByteScanner.position?, hstart, h.cursor, slice?_before h.text]
    rfl
  simp only [ByteScanner.next, htrim, ByteScanner.token, hmark, read_of_end hpeek, Option.bind_some,
    hposition, Option.map_some]

theorem after_of_next {r : Reading} (h : l.next = some (r, l)) (n : Nat) : l.after n = some l := by
  induction n with
  | zero => rfl
  | succ n ih =>
    rw [after, h]
    exact ih

end

/-- A space, a tab, a line feed, a form feed or a carriage return. -/
def isBlankByte (b : UInt8) : Bool := b = 32 || b = 9 || b = 10 || b = 12 || b = 13

theorem isBlank_ofUInt8 (b : UInt8) : isBlank (.ofUInt8 b) = isBlankByte b := by
  have hchar : ∀ (c : Char) (n : UInt8), c.toNat = n.toNat → (Char.ofUInt8 b = c ↔ b = n) := by
    intro c n hn
    rw [← Char.toNat_inj, toNat_ofUInt8, hn, UInt8.toNat_inj]
  simp only [isBlank, isBlankByte, hchar ' ' 32 rfl, hchar '\t' 9 rfl, hchar '\n' 10 rfl,
    hchar '\x0c' 12 rfl, hchar '\r' 13 rfl]

/-- What a reading that starts at `l`, gives `r` and ends at `l'` does to the text: it passes over
blanks, and then it reads a piece of the text, which is a token or what cannot be read as one. -/
structure Tile (l : ByteScanner) (r : Reading) (l' : ByteScanner) : Prop where
  text : l'.text = l.text
  /-- The blanks at the cursor are passed over, all of them and nothing else. -/
  blanks : l'.start = l.cursor + ((l.bytes.drop l.cursor).takeWhile isBlankByte).length
  start_le : l'.start ≤ l'.cursor
  cursor_le : l'.cursor ≤ l.bytes.length
  /-- Only at the end of the text nothing is read. -/
  empty_iff : l'.cursor = l'.start ↔ l'.start = l.bytes.length
  eof_iff : r.token = .ok .eof ↔ l'.start = l.bytes.length
  eof_again : r.token = .ok .eof → ∀ n, (l'.after n).bind next = some (r, l')
  /-- No character is cut where the piece starts. -/
  boundary : (⟨l'.start⟩ : String.Pos.Raw).IsValid l.text
  place : l'.position? = some r.pos
  /-- What is read as a token is how that token is written, and no longer one stands there. -/
  longest : ∀ t, r.token = .ok t → t ≠ .eof → ∃ i : Item,
    t = i.token (fun x => (l.symbols.intern x).1) ∧ l'.lexeme? = some i.chars ∧
      ∃ rest, l'.slice? l'.start l'.bytes.length = some rest ∧
        ∀ j : Item, j.chars <+: rest → j.chars.length ≤ i.chars.length
  /-- The place that is told is that of the first character of the piece. -/
  located : r.token ≠ .ok .eof → ∃ c rest, l'.slice? l'.start l'.bytes.length = some (c :: rest) ∧
    charAt? l.text.toList r.pos = some c

section

variable {l l' : ByteScanner} {s : Scanner} {before : List Char}

theorem Took.end_iff (h : Took l s before) : l.start = l.bytes.length ↔ s.rest = [] := by
  rw [h.start, bytes_eq, h.text, utf8_append, List.length_append, ← utf8_eq_nil_iff,
    ← List.length_eq_zero_iff]
  omega

theorem Took.eof_iff (h : Took l s before) : s.token.1 = .ok .eof ↔ l.start = l.bytes.length := by
  rw [h.end_iff]
  exact ⟨fun heof => Scanner.rest_of_token_eof (Prod.ext heof rfl),
    fun hs => by rw [Scanner.token_nil hs]⟩

theorem Took.empty_iff (h : Took l s before) : l.cursor = l.start ↔ l.start = l.bytes.length := by
  constructor
  · intro hempty
    refine h.end_iff.2 (Decidable.byContradiction fun hs => ?_)
    have hmoves := h.moves hs
    omega
  · intro hend
    have hle := h.cursor_le
    have hstart := h.start_le
    omega

theorem Took.boundary (h : Took l s before) : (⟨l.start⟩ : String.Pos.Raw).IsValid l.text := by
  refine String.Pos.Raw.isValid_iff_exists_append.2 ⟨.ofList before, .ofList s.rest, ?_, ?_⟩
  · rw [← String.ofList_append, ← h.text, String.ofList_toList]
  · rw [h.start, ← size_utf8Encode, ← String.toByteArray_ofList]
    rfl

theorem Took.slice_rest (h : Took l s before) : l.slice? l.start l.bytes.length = some s.rest := by
  rw [h.start, slice?_rest h.text]

theorem Took.eof_again (h : Took l s before) (heof : s.token.1 = .ok .eof) (n : Nat) :
    (l.after n).bind next = some (⟨behind before, .ok .eof⟩, l) := by
  have hs : s.rest = [] := Scanner.rest_of_token_eof (Prod.ext heof rfl)
  obtain ⟨taken, hrest, hat⟩ | ⟨⟨e, herror⟩, -⟩ := h.stands
  · obtain ⟨rfl, hnil⟩ := List.append_eq_nil_iff.1 (hrest.symm.trans hs)
    rw [List.append_nil] at hat
    have hnext := hat.next_end hnil (h.start.trans hat.cursor.symm)
    rw [after_of_next hnext, Option.bind_some, hnext]
  · rw [heof] at herror
    cases herror

theorem Took.longest (h : Took l s before) {t : Token} (htoken : s.token.1 = .ok t) (ht : t ≠ .eof) :
    ∃ i : Item, t = i.token (fun x => (s.symbols.intern x).1) ∧ l.lexeme? = some i.chars ∧
      ∀ j : Item, j.chars <+: s.rest → j.chars.length ≤ i.chars.length := by
  obtain ⟨i, hi, hrest, hlongest⟩ := Scanner.token_longest (Prod.ext htoken rfl) ht
  refine ⟨i, hi, ?_, hlongest⟩
  obtain ⟨taken, htaken, hat⟩ | ⟨⟨e, herror⟩, -⟩ := h.stands
  · rw [htaken] at hrest
    obtain rfl := List.append_cancel_right hrest
    rw [lexeme?, h.start, hat.cursor]
    exact slice?_eq (h.text.trans (congrArg (before ++ ·) htaken))
  · rw [htoken] at herror
    cases herror

/-- The place behind blanks is that of the character there. -/
theorem At.located (h : At l s before) (hs : s.skipBlanks.rest ≠ []) :
    ∃ c rest, s.skipBlanks.rest = c :: rest ∧ charAt? l.text.toList s.skipBlanks.pos = some c := by
  obtain ⟨c, rest, hrest⟩ := List.exists_cons_of_ne_nil hs
  have hdrop : s.skipBlanks.rest = s.rest.dropWhile isBlank := Scanner.drop_takeWhile isBlank s.rest
  have hblank := Scanner.not_head_dropWhile isBlank s.rest c (by rw [← hdrop, hrest]; rfl)
  have hnewline : c ≠ '\n' := by
    rintro rfl
    exact hblank rfl
  refine ⟨c, rest, hrest, ?_⟩
  have htext : l.text.toList = before ++ s.rest.takeWhile isBlank ++ c :: rest := by
    rw [h.text, List.append_assoc, ← hrest, hdrop, List.takeWhile_append_dropWhile]
  rw [htext, h.trim.pos]
  exact Position.charAt?_behind hnewline _ _

section

variable (h : At l s before) (htook : Took l' s.skipBlanks (before ++ s.rest.takeWhile isBlank))

include h htook

theorem text_of_took : l'.text = l.text := by
  refine String.toList_inj.1 ?_
  rw [htook.text, ← h.trim.text, trim_eq]
  rfl

theorem bytes_of_took : l'.bytes = l.bytes := by rw [bytes, text_of_took h htook, bytes]

/-- One reading lays one tile. -/
theorem tile_of_took : Tile l s.next.1 l' where
  text := text_of_took h htook
  blanks := by
    rw [htook.start, ← h.trim.cursor, trim_eq, skip, run]
    simp only [isBlank_ofUInt8]
  start_le := htook.start_le
  cursor_le := bytes_of_took h htook ▸ htook.cursor_le
  empty_iff := bytes_of_took h htook ▸ htook.empty_iff
  eof_iff := bytes_of_took h htook ▸ htook.eof_iff
  eof_again := by
    intro heof n
    rw [htook.eof_again heof, ← h.trim.pos, ← heof]
    rfl
  boundary := text_of_took h htook ▸ htook.boundary
  place := by
    rw [htook.position?, ← h.trim.pos]
    rfl
  longest := by
    intro t htoken ht
    obtain ⟨i, hi, hlexeme, hlongest⟩ := htook.longest htoken ht
    exact ⟨i, h.symbols ▸ hi, hlexeme, _, htook.slice_rest, hlongest⟩
  located := by
    intro hne
    have hs : s.skipBlanks.rest ≠ [] := fun hs => hne (htook.eof_iff.2 (htook.end_iff.2 hs))
    obtain ⟨c, rest, hrest, hlocated⟩ := h.located hs
    exact ⟨c, rest, htook.slice_rest.trans (congrArg some hrest), hlocated⟩

end

end

/-- Whatever has been read or could not be read before, the next reading lays a tile, and the reading is
the one that characters give. -/
theorem readings_tile_text (source : String) (n : Nat)
    (h : ∀ k ≤ n, ∀ l ∈ (ofSource source).after k, ∀ b ∈ l.bytes.take l.cursor, b.toNat < 128) :
    ∃ l before r l', (ofSource source).after n = some l ∧
      At l ((Scanner.ofSource source).after n) before ∧
      l.next = some (r, l') ∧ ((Scanner.ofSource source).after n).next.1 = r ∧ Tile l r l' := by
  obtain ⟨l, before, hafter, hat⟩ := (At.initial source).after n h
  obtain ⟨l', hnext, htook⟩ := hat.next
  exact ⟨l, before, _, l', hafter, hat, hnext, rfl, tile_of_took hat htook⟩

theorem readings_tile_text_errors :
    (∀ k ≤ 3, ∀ l ∈ (ofSource "a #\n!b é").after k, ∀ b ∈ l.bytes.take l.cursor, b.toNat < 128) ∧
      ∃ l r l', (ofSource "a #\n!b é").after 3 = some l ∧ l.next = some (r, l') ∧ r.pos = ⟨2, 4⟩ ∧
        r.token = .error (.unexpected 'é') ∧ Tile l r l' := by
  have hascii : ∀ k ≤ 3, ∀ l ∈ (ofSource "a #\n!b é").after k,
      ∀ b ∈ l.bytes.take l.cursor, b.toNat < 128 := by decide +kernel
  obtain ⟨l, before, r, l', hafter, -, hnext, rfl, htile⟩ := readings_tile_text _ 3 hascii
  exact ⟨hascii, l, _, l', hafter, hnext, by decide +kernel, rfl, htile⟩

end ByteScanner

end Solo
