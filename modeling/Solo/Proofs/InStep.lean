import Solo.Proofs.ByteScanner
import Solo.Proofs.LongestMatch

/-! The two scanners stay in step. Reading bytes gives what reading characters gives, as long as the
bytes that have been read are ASCII characters: every loop stops at the first byte of any other
character, and only an error can leave the cursor inside of one. -/

namespace Solo

open Position (behind)

namespace Scanner

/-- The scanner after `n` readings. -/
def after : Nat → Scanner → Scanner
  | 0, s => s
  | n + 1, s => after n s.next.2

section

variable {s : Scanner} {c : Char} {cs : List Char}

theorem token_loneBang (hs : s.rest = '!' :: cs) (hcs : ∀ d ∈ cs.head?, d ≠ '=') :
    s.token = (.error .loneBang, s.skip 2) := by
  unfold token
  rw [hs]
  split
  · next h => cases h
  · next h => cases h
  · next h => cases h
  · next h => cases h; simp at hcs
  · rfl
  · next hbang h => cases h; simp at hbang

theorem token_outOfRange {e : NumeralError} (hs : s.rest = c :: cs) (hc : c.isDigit = true)
    (hvalue : Numeral.word (c :: cs.takeWhile Char.isDigit) = .error e) :
    s.token = (.error (.outOfRange (String.ofList (c :: cs.takeWhile Char.isDigit))),
      s.skip (c :: cs.takeWhile Char.isDigit).length) := by
  unfold token
  rw [hs]
  split
  · next h => cases h
  · next h => cases h; simp at hc
  · next h => cases h; simp at hc
  · next h => cases h; simp at hc
  · next h => cases h; simp at hc
  · next h =>
    cases h
    simp only [hc, if_true, hvalue]

theorem token_unexpected (hs : s.rest = c :: cs) (heq : c ≠ '=') (hbang : c ≠ '!')
    (hdigit : ¬ c.isDigit = true) (hword : ¬ isWordStart c = true) (hpunct : Punct.ofChar? c = none) :
    s.token = (.error (.unexpected c), s.skip 1) := by
  unfold token
  rw [hs]
  split
  · next h => cases h
  · next h => cases h; exact absurd rfl heq
  · next h => cases h; exact absurd rfl heq
  · next h => cases h; exact absurd rfl hbang
  · next h => cases h; exact absurd rfl hbang
  · next h =>
    cases h
    simp only [hdigit, hword, hpunct]
    rfl

end

/-- No token begins with a character that is no ASCII character. -/
theorem begins_nothing {c : Char} (hc : 128 ≤ c.toNat) : c ≠ '=' ∧ c ≠ '!' ∧ ¬ c.isDigit = true ∧
    ¬ isWordStart c = true ∧ Punct.ofChar? c = none := by
  have hno : ∀ p, AsciiOnly p → ¬ p c = true := fun p hp h => Nat.not_lt.2 hc (hp c h)
  have hne : ∀ d : Char, d.toNat < 128 → c ≠ d := by
    rintro d hd rfl
    omega
  exact ⟨hne '=' (by decide), hne '!' (by decide), hno _ isDigit_ascii, hno _ isWordStart_ascii,
    Option.not_isSome_iff_eq_none.1 (hno _ ofChar?_ascii)⟩

end Scanner

namespace ByteScanner

open Scanner (isBlank isWordStart isWordPart)

theorem bytes_eq (l : ByteScanner) : l.bytes = utf8 l.text.toList := by
  rw [bytes, ← String.ofList_toList (s := l.text), String.toByteArray_ofList, List.utf8Encode,
    List.data_toByteArray, String.toList_ofList]
  rfl

theorem size_utf8Encode (cs : List Char) : cs.utf8Encode.size = (utf8 cs).length := List.size_toByteArray

/-- A slice that starts and ends between characters is what stands there. -/
theorem slice?_eq {l : ByteScanner} {xs ys zs : List Char} (h : l.text.toList = xs ++ (ys ++ zs)) :
    l.slice? (utf8 xs).length (utf8 (xs ++ ys)).length = some ys := by
  have hvalid : ys.utf8Encode.IsValidUTF8 := .intro ys rfl
  have hslice : l.text.toByteArray.extract (utf8 xs).length (utf8 (xs ++ ys)).length =
      ys.utf8Encode := by
    have hnone : xs.utf8Encode.extract xs.utf8Encode.size (xs.utf8Encode.size + ys.utf8Encode.size) =
        ByteArray.empty :=
      ByteArray.extract_eq_empty_iff.2 (by omega)
    rw [← String.ofList_toList (s := l.text), h, String.toByteArray_ofList, List.utf8Encode_append,
      List.utf8Encode_append, ← size_utf8Encode, ← size_utf8Encode, List.utf8Encode_append,
      ByteArray.size_append, ByteArray.extract_append, hnone, Nat.sub_self, Nat.add_sub_cancel_left,
      ByteArray.empty_append]
    exact ByteArray.extract_append_eq_left rfl
  rw [slice?, hslice, String.fromUTF8?, dif_pos hvalid, Option.map_some,
    show String.fromUTF8 ys.utf8Encode hvalid = String.ofList ys from rfl, String.toList_ofList]

theorem slice?_rest {l : ByteScanner} {before rest : List Char} (h : l.text.toList = before ++ rest) :
    l.slice? (utf8 before).length l.bytes.length = some rest := by
  have hall : l.text.toList = before ++ (rest ++ []) := by rw [h, List.append_nil]
  rw [bytes_eq, h]
  exact slice?_eq hall

theorem slice?_before {l : ByteScanner} {before rest : List Char} (h : l.text.toList = before ++ rest) :
    l.slice? 0 (utf8 before).length = some before := by
  have hslice : l.slice? (utf8 []).length (utf8 ([] ++ before)).length = some before := slice?_eq h
  exact hslice

/-- Both scanners have read `before`, of the same text and with the same names. -/
structure At (l : ByteScanner) (s : Scanner) (before : List Char) : Prop where
  text : l.text.toList = before ++ s.rest
  cursor : l.cursor = (utf8 before).length
  symbols : l.symbols = s.symbols
  pos : s.pos = behind before

namespace At

variable {l : ByteScanner} {s : Scanner} {before : List Char} {c : Char} {cs : List Char}

theorem initial (source : String) : At (.ofSource source) (.ofSource source) [] where
  text := rfl
  cursor := rfl
  symbols := rfl
  pos := rfl

theorem ahead (h : At l s before) : l.bytes.drop l.cursor = utf8 s.rest := by
  rw [bytes_eq, h.text, h.cursor, utf8_append, List.drop_left]

theorem peek_eq (h : At l s before) : l.peek = (utf8 s.rest).head?.map Char.ofUInt8 := by
  rw [peek, ← h.ahead, List.head?_drop]

theorem peek_nil (h : At l s before) (hs : s.rest = []) : l.peek = none := by
  rw [h.peek_eq, hs]
  rfl

theorem peek_ascii (h : At l s before) (hs : s.rest = c :: cs) (hc : c.toNat < 128) :
    l.peek = some c := by
  rw [h.peek_eq, hs, utf8_ascii hc, List.head?_cons, Option.map_some, ofUInt8_ascii hc]

theorem peek_other (h : At l s before) (hs : s.rest = c :: cs) (hc : 128 ≤ c.toNat) :
    ∃ d, l.peek = some d ∧ 128 ≤ d.toNat := by
  obtain ⟨b, bs, hb, hlarge⟩ := exists_utf8_cons hc cs
  exact ⟨.ofUInt8 b, by rw [h.peek_eq, hs, hb]; rfl, hlarge⟩

/-- ASCII characters are read byte by byte. -/
theorem skip (h : At l s before) (taken : List Char) {rest : List Char} (hs : s.rest = taken ++ rest)
    (hascii : ∀ c ∈ taken, c.toNat < 128) :
    At (l.skip taken.length) (s.skip taken.length) (before ++ taken) where
  text := by
    rw [Scanner.skip, hs, List.drop_left, List.append_assoc, ← hs]
    exact h.text
  cursor := by
    rw [utf8_append, List.length_append, length_utf8_ascii hascii, ← h.cursor]
    rfl
  symbols := h.symbols
  pos := by
    rw [Scanner.skip, hs, List.take_left, h.pos]
    exact Position.behind_append before taken

theorem skip_one (h : At l s before) (hs : s.rest = c :: cs) (hc : c.toNat < 128) :
    At (l.skip 1) (s.skip 1) (before ++ [c]) ∧ (s.skip 1).rest = cs := by
  refine ⟨h.skip [c] hs (by simpa using hc), ?_⟩
  rw [Scanner.skip, hs]
  rfl

theorem run_eq (h : At l s before) {p : Char → Bool} (hp : AsciiOnly p) :
    l.run p = (s.rest.takeWhile p).length := by
  rw [run, h.ahead, length_takeWhile_utf8 hp]

end At

/-- The scanner has read a token at the text behind `before`, where `s` reads on. It has read as much as
`s` does, if it has not stopped with an error at a byte that is no ASCII character. -/
structure Took (l : ByteScanner) (s : Scanner) (before : List Char) : Prop where
  text : l.text.toList = before ++ s.rest
  start : l.start = (utf8 before).length
  start_le : l.start ≤ l.cursor
  moves : s.rest ≠ [] → l.start < l.cursor
  cursor_le : l.cursor ≤ l.bytes.length
  stands : (∃ taken, s.rest = taken ++ s.token.2.rest ∧ At l s.token.2 (before ++ taken)) ∨
    (∃ e, s.token.1 = .error e) ∧ ∃ b ∈ l.bytes.take l.cursor, 128 ≤ b.toNat

section

variable {l : ByteScanner} {s : Scanner} {before rest : List Char}

theorem Took.of_whole (taken : List Char) (symbols : SymbolTable) (h : At l s before)
    (hstart : l.start = l.cursor) (hs : s.rest = taken ++ rest)
    (hascii : ∀ c ∈ taken, c.toNat < 128) (hne : s.rest ≠ [] → taken ≠ [])
    (htoken : s.token.2 = { s.skip taken.length with symbols }) :
    Took { l.skip taken.length with symbols } s before where
  text := h.text
  start := hstart.trans h.cursor
  start_le := hstart ▸ Nat.le_add_right _ _
  moves := by
    intro hrest
    have hpos := List.length_pos_iff.2 (hne hrest)
    change l.start < l.cursor + taken.length
    omega
  cursor_le := by
    have hcursor : l.cursor + taken.length = (utf8 (before ++ taken)).length :=
      (h.skip taken hs hascii).cursor
    change l.cursor + taken.length ≤ l.bytes.length
    rw [hcursor, bytes_eq, h.text, hs, ← List.append_assoc, utf8_append (before ++ taken),
      List.length_append]
    omega
  stands := by
    have hrest : (s.skip taken.length).rest = rest := by rw [Scanner.skip, hs, List.drop_left]
    have hskip := h.skip taken hs hascii
    refine .inl ⟨taken, ?_, ?_⟩
    · rw [htoken]
      exact hs.trans (congrArg (taken ++ ·) hrest.symm)
    · rw [htoken]
      exact ⟨hskip.text, hskip.cursor, rfl, hskip.pos⟩

theorem Took.of_cut (taken : List Char) {c : Char} (h : At l s before) (hstart : l.start = l.cursor)
    (hs : s.rest = taken ++ c :: rest) (hascii : ∀ c ∈ taken, c.toNat < 128) (hc : 128 ≤ c.toNat)
    (herror : ∃ e, s.token.1 = .error e) : Took (l.skip (taken.length + 1)) s before := by
  obtain ⟨b, bs, hb, hlarge⟩ := exists_utf8_cons hc rest
  have hbytes : l.bytes = utf8 (before ++ taken) ++ b :: bs := by
    rw [bytes_eq, h.text, hs, ← List.append_assoc, utf8_append, hb]
  have hcursor : l.cursor + taken.length = (utf8 (before ++ taken)).length :=
    (h.skip taken hs hascii).cursor
  refine ⟨h.text, hstart.trans h.cursor, hstart ▸ Nat.le_add_right _ _, fun _ => ?_, ?_,
    .inr ⟨herror, b, ?_, hlarge⟩⟩
  · change l.start < l.cursor + (taken.length + 1)
    omega
  · change l.cursor + (taken.length + 1) ≤ l.bytes.length
    rw [hbytes, List.length_append, List.length_cons]
    omega
  · change b ∈ l.bytes.take (l.cursor + (taken.length + 1))
    rw [← Nat.add_assoc, hcursor, hbytes, List.take_length_add_append, List.take_succ_cons]
    simp

variable {c : Char} {cs : List Char}

/-- What brings no new name leaves the table alone. -/
theorem Took.of_skip (taken : List Char) (h : At l s before) (hstart : l.start = l.cursor)
    (hs : s.rest = taken ++ rest) (hascii : ∀ c ∈ taken, c.toNat < 128) (hne : s.rest ≠ [] → taken ≠ [])
    (htoken : s.token.2 = s.skip taken.length) : Took (l.skip taken.length) s before := by
  have htook := Took.of_whole taken s.symbols h hstart hs hascii hne htoken
  rw [← h.symbols] at htook
  exact htook

/-- The next byte is an equals sign exactly if the next character is one. -/
theorem At.peek_equals (h : At l s before) : l.peek = some '=' ↔ s.rest.head? = some '=' := by
  cases hs : s.rest with
  | nil => simp [h.peek_nil hs]
  | cons c cs =>
    rcases Nat.lt_or_ge c.toNat 128 with hc | hc
    · simp [h.peek_ascii hs hc]
    · obtain ⟨d, hd, hlarge⟩ := h.peek_other hs hc
      have hne : ∀ e : Char, 128 ≤ e.toNat → e ≠ '=' := by
        rintro e he rfl
        exact absurd he (by decide)
      simp [hd, hne d hlarge, hne c hc]

theorem equals_eq (l : ByteScanner) : l.equals =
    if l.peek = some '=' then (.ok (.punct .eq), l.skip 1) else (.ok (.punct .assign), l) := by
  unfold equals
  cases hpeek : l.peek with
  | none =>
    rw [read_of_end hpeek]
    rfl
  | some c =>
    rw [read_of_peek hpeek]
    by_cases hc : c = '='
    · subst hc
      rfl
    · split
      · next heq =>
        cases heq
        exact absurd rfl hc
      · next heq =>
        cases heq
        rw [if_neg (by simpa using hc), unread_skip]
      · next heq => cases heq

theorem bang_eq (l : ByteScanner) : l.bang =
    (if l.peek = some '=' then .ok (.punct .ne) else .error .loneBang, l.read.2) := by
  unfold bang
  cases hpeek : l.peek with
  | none =>
    rw [read_of_end hpeek]
    rfl
  | some c =>
    rw [read_of_peek hpeek]
    by_cases hc : c = '='
    · subst hc
      rfl
    · split
      · next heq =>
        cases heq
        exact absurd rfl hc
      · next heq =>
        cases heq
        rw [if_neg (by simpa using hc)]

theorem At.equals (h : At l s before) (hstart : l.start = l.cursor) (hs : s.rest = '=' :: cs) :
    ∃ l', (l.skip 1).equals = (s.token.1, l') ∧ Took l' s before := by
  obtain ⟨hnext, hrest⟩ := h.skip_one hs (by decide)
  have hpeek := hrest ▸ hnext.peek_equals
  rw [equals_eq]
  by_cases hcs : cs.head? = some '='
  · obtain ⟨ds, rfl⟩ := List.head?_eq_some_iff.1 hcs
    have htoken := Scanner.token_punct (p := .eq) hs (by simp)
    refine ⟨_, by rw [if_pos (hpeek.2 hcs), htoken], ?_⟩
    exact Took.of_skip ['=', '='] h hstart hs (by simp) (by simp) (by rw [htoken]; rfl)
  · have htoken := Scanner.token_punct (p := .assign) hs fun _ c hc he => hcs (he ▸ hc)
    refine ⟨_, by rw [if_neg (mt hpeek.1 hcs), htoken], ?_⟩
    exact Took.of_skip ['='] h hstart hs (by simp) (by simp) (by rw [htoken]; rfl)

theorem At.bang (h : At l s before) (hstart : l.start = l.cursor) (hs : s.rest = '!' :: cs) :
    ∃ l', (l.skip 1).bang = (s.token.1, l') ∧ Took l' s before := by
  obtain ⟨hnext, hrest⟩ := h.skip_one hs (by decide)
  have hpeek := hrest ▸ hnext.peek_equals
  rw [bang_eq]
  by_cases hcs : cs.head? = some '='
  · obtain ⟨ds, rfl⟩ := List.head?_eq_some_iff.1 hcs
    have htoken := Scanner.token_punct (p := .ne) hs (by simp)
    refine ⟨_, by rw [if_pos (hpeek.2 hcs), htoken], ?_⟩
    rw [read_of_peek (hpeek.2 hcs)]
    exact Took.of_skip ['!', '='] h hstart hs (by simp) (by simp) (by rw [htoken]; rfl)
  have htoken := Scanner.token_loneBang hs fun c hc he => hcs (he ▸ hc)
  refine ⟨_, by rw [if_neg (mt hpeek.1 hcs), htoken], ?_⟩
  cases cs with
  | nil =>
    rw [read_of_end (hnext.peek_nil hrest)]
    refine Took.of_skip ['!'] h hstart hs (by simp) (by simp) ?_
    rw [htoken, Scanner.skip, Scanner.skip, hs]
    rfl
  | cons d ds =>
    rcases Nat.lt_or_ge d.toNat 128 with hd | hd
    · rw [read_of_peek (hnext.peek_ascii hrest hd)]
      exact Took.of_skip ['!', d] h hstart hs (by simp [hd]) (by simp) (by rw [htoken]; rfl)
    · -- the byte that is read is the first of several
      obtain ⟨e, he, -⟩ := hnext.peek_other hrest hd
      rw [read_of_peek he]
      exact Took.of_cut ['!'] h hstart hs (by simp) hd ⟨_, by rw [htoken]⟩

/-- A first character and those of a kind behind it. -/
theorem cons_takeWhile {p : Char → Bool} (hs : s.rest = c :: cs) (hc : c.toNat < 128)
    (hp : AsciiOnly p) : s.rest = (c :: cs.takeWhile p) ++ cs.dropWhile p ∧
      ∀ d ∈ c :: cs.takeWhile p, d.toNat < 128 := by
  constructor
  · rw [hs, List.cons_append, List.takeWhile_append_dropWhile]
  · have hkind := List.all_eq_true.1 (List.all_takeWhile (p := p) (l := cs))
    exact List.forall_mem_cons.2 ⟨hc, fun d hd => hp d (hkind d hd)⟩

/-- What a loop reads behind a first character is, with it, the text of the token. -/
theorem At.readWhile {p : Char → Bool} (h : At l s before) (hstart : l.start = l.cursor)
    (hs : s.rest = c :: cs) (hc : c.toNat < 128) (hp : AsciiOnly p) :
    (l.skip 1).readWhile p = l.skip (c :: cs.takeWhile p).length ∧
      (l.skip (c :: cs.takeWhile p).length).lexeme? = some (c :: cs.takeWhile p) := by
  obtain ⟨hnext, hrest⟩ := h.skip_one hs hc
  obtain ⟨hsplit, hascii⟩ := cons_takeWhile hs hc hp
  constructor
  · rw [readWhile_eq, skip_skip, hnext.run_eq hp, hrest, List.length_cons, Nat.add_comm]
  · have hcursor := (h.skip _ hsplit hascii).cursor
    rw [lexeme?, hcursor, show (l.skip _).start = (utf8 before).length from hstart.trans h.cursor]
    exact slice?_eq (h.text.trans (congrArg (before ++ ·) hsplit))

theorem At.number (h : At l s before) (hstart : l.start = l.cursor) (hs : s.rest = c :: cs)
    (hc : c.isDigit = true) : ∃ l', (l.skip 1).number = some (s.token.1, l') ∧ Took l' s before := by
  have hsmall := Scanner.isDigit_ascii c hc
  obtain ⟨hread, hlexeme⟩ := h.readWhile hstart hs hsmall Scanner.isDigit_ascii
  obtain ⟨hsplit, hascii⟩ := cons_takeWhile hs hsmall Scanner.isDigit_ascii
  simp only [ByteScanner.number, hread, hlexeme, Option.map_some]
  cases hvalue : Numeral.word (c :: cs.takeWhile Char.isDigit) with
  | ok n =>
    have htoken := Scanner.token_digits hs hc hvalue
    exact ⟨_, by rw [htoken], .of_skip _ h hstart hsplit hascii (by simp) (by rw [htoken])⟩
  | error e =>
    have htoken := Scanner.token_outOfRange hs hc hvalue
    exact ⟨_, by rw [htoken], .of_skip _ h hstart hsplit hascii (by simp) (by rw [htoken])⟩

theorem At.word (h : At l s before) (hstart : l.start = l.cursor) (hs : s.rest = c :: cs)
    (hc : isWordStart c = true) : ∃ l', (l.skip 1).word = some (s.token.1, l') ∧ Took l' s before := by
  have hsmall := Scanner.isWordStart_ascii c hc
  obtain ⟨hread, hlexeme⟩ := h.readWhile hstart hs hsmall Scanner.isWordPart_ascii
  obtain ⟨hsplit, hascii⟩ := cons_takeWhile hs hsmall Scanner.isWordPart_ascii
  have hsymbols : (l.skip (c :: cs.takeWhile isWordPart).length).symbols = s.symbols := h.symbols
  have htoken := Scanner.token_word hs hc String.toList_ofList.symm
  rw [Scanner.word, String.toList_ofList] at htoken
  simp only [ByteScanner.word, hread, hlexeme, Option.map_some, hsymbols]
  cases hk : Keyword.ofWord? (String.ofList (c :: cs.takeWhile isWordPart)) with
  | some k =>
    simp only [hk] at htoken
    exact ⟨_, by rw [htoken], .of_skip _ h hstart hsplit hascii (by simp) (by rw [htoken])⟩
  | none =>
    simp only [hk] at htoken
    exact ⟨_, by rw [htoken]; rfl, .of_whole _ _ h hstart hsplit hascii (by simp) (by rw [htoken]; rfl)⟩

theorem At.mark (h : At l s before) : At l.mark s before := ⟨h.text, h.cursor, h.symbols, h.pos⟩

theorem At.unexpected (h : At l s before) (hstart : l.start = l.cursor) (hs : s.rest = c :: cs) :
    (l.skip 1).unexpected = some (.error (.unexpected c), l.skip 1) := by
  have hslice : (l.skip 1).slice? (l.skip 1).start (l.skip 1).bytes.length = some (c :: cs) := by
    rw [show (l.skip 1).start = (utf8 before).length from hstart.trans h.cursor]
    exact slice?_rest (h.text.trans (by rw [hs]))
  rw [ByteScanner.unexpected, hslice]
  rfl

theorem At.punct {p : Punct} (h : At l s before) (hstart : l.start = l.cursor) (hs : s.rest = c :: cs)
    (hc : c.toNat < 128) (heq : c ≠ '=') (hp : Punct.ofChar? c = some p) :
    ∃ l', some (.ok (.punct p), l.skip 1) = some (s.token.1, l') ∧ Took l' s before := by
  have htext := Punct.text_of_ofChar? hp
  have hassign : p ≠ .assign := by
    rintro rfl
    exact heq (List.cons.inj htext).1.symm
  have hrest : s.rest = p.text.toList ++ cs := by rw [hs, htext]; rfl
  have htoken := Scanner.token_punct hrest fun hp => absurd hp hassign
  refine ⟨_, by rw [htoken], ?_⟩
  exact Took.of_skip [c] h hstart hs (by simpa using hc) (by simp) (by rw [htoken, htext])

/-- A byte that is no ASCII character begins nothing. -/
theorem At.token_large (h : At l s before) (hs : s.rest = c :: cs) (hc : 128 ≤ c.toNat) :
    ∃ l', l.token = some (s.token.1, l') ∧ Took l' s before := by
  obtain ⟨d, hpeek, hd⟩ := h.mark.peek_other hs hc
  obtain ⟨heq, hbang, hdigit, hword, hpunct⟩ := Scanner.begins_nothing hc
  have htoken := Scanner.token_unexpected hs heq hbang hdigit hword hpunct
  refine ⟨l.mark.skip 1, ?_, Took.of_cut [] h.mark rfl hs (by simp) hc ⟨_, by rw [htoken]⟩⟩
  obtain ⟨heq, hbang, hdigit, hword, hpunct⟩ := Scanner.begins_nothing hd
  simp only [ByteScanner.token, read_of_peek hpeek]
  rw [if_neg heq, if_neg hbang, if_neg hdigit, if_neg hword, hpunct, htoken]
  exact h.mark.unexpected rfl hs

/-- Reading bytes gives what reading characters gives. -/
theorem At.token (h : At l s before) : ∃ l', l.token = some (s.token.1, l') ∧ Took l' s before := by
  have hmark := h.mark
  cases hs : s.rest with
  | nil =>
    have htoken := Scanner.token_nil hs
    refine ⟨l.mark, ?_, Took.of_skip [] hmark rfl rfl (by simp) (fun hne => absurd hs hne) ?_⟩
    · simp only [ByteScanner.token, read_of_end (hmark.peek_nil hs), htoken]
    · rw [htoken]
      rfl
  | cons c cs =>
    rcases Nat.lt_or_ge c.toNat 128 with hc | hc
    · simp only [ByteScanner.token, read_of_peek (hmark.peek_ascii hs hc)]
      by_cases heq : c = '='
      · subst heq
        obtain ⟨l', htoken, htook⟩ := hmark.equals rfl hs
        exact ⟨l', by rw [if_pos rfl, htoken], htook⟩
      by_cases hbang : c = '!'
      · subst hbang
        obtain ⟨l', htoken, htook⟩ := hmark.bang rfl hs
        exact ⟨l', by rw [if_neg heq, if_pos rfl, htoken], htook⟩
      rw [if_neg heq, if_neg hbang]
      by_cases hdigit : c.isDigit = true
      · rw [if_pos hdigit]
        exact hmark.number rfl hs hdigit
      by_cases hword : isWordStart c = true
      · rw [if_neg hdigit, if_pos hword]
        exact hmark.word rfl hs hword
      rw [if_neg hdigit, if_neg hword]
      cases hpunct : Punct.ofChar? c with
      | some p => exact hmark.punct rfl hs hc heq hpunct
      | none =>
        have htoken := Scanner.token_unexpected hs heq hbang hdigit hword hpunct
        refine ⟨_, by rw [hmark.unexpected rfl hs, htoken], ?_⟩
        exact Took.of_skip [c] hmark rfl hs (by simpa using hc) (by simp) (by rw [htoken]; rfl)
    · exact h.token_large hs hc

theorem At.trim (h : At l s before) :
    At l.trim s.skipBlanks (before ++ s.rest.takeWhile isBlank) := by
  have hascii : ∀ c ∈ s.rest.takeWhile isBlank, c.toNat < 128 :=
    fun c hc => Scanner.isBlank_ascii c (List.all_eq_true.1 List.all_takeWhile c hc)
  rw [trim_eq, h.run_eq Scanner.isBlank_ascii]
  exact h.skip _ List.takeWhile_append_dropWhile.symm hascii

theorem Took.position? (h : Took l s before) : l.position? = some (behind before) := by
  rw [ByteScanner.position?, h.start, slice?_before h.text]
  rfl

/-- One reading, with its place. -/
theorem At.next (h : At l s before) : ∃ l', l.next = some (s.next.1, l') ∧
    Took l' s.skipBlanks (before ++ s.rest.takeWhile isBlank) := by
  obtain ⟨l', htoken, htook⟩ := h.trim.token
  refine ⟨l', ?_, htook⟩
  simp only [ByteScanner.next, htoken, Option.bind_some, htook.position?, Option.map_some, ← h.trim.pos]
  rfl

/-- A reading that has passed only ASCII characters has passed what the other scanner has. -/
theorem Took.at (h : Took l s before) (hascii : ∀ b ∈ l.bytes.take l.cursor, b.toNat < 128) :
    ∃ before', At l s.token.2 before' := by
  obtain ⟨taken, -, hat⟩ | ⟨-, b, hmem, hb⟩ := h.stands
  · exact ⟨_, hat⟩
  · exact absurd hb (Nat.not_le.2 (hascii b hmem))

/-- After any number of readings that have passed only ASCII characters the scanners are where they
should be. -/
theorem At.after (h : At l s before) (n : Nat)
    (hascii : ∀ k ≤ n, ∀ l' ∈ l.after k, ∀ b ∈ l'.bytes.take l'.cursor, b.toNat < 128) :
    ∃ l' before', l.after n = some l' ∧ At l' (s.after n) before' := by
  induction n generalizing l s before with
  | zero => exact ⟨l, before, rfl, h⟩
  | succ n ih =>
    obtain ⟨l', hnext, htook⟩ := h.next
    have hstep : ∀ k, l.after (k + 1) = l'.after k := by
      intro k
      rw [ByteScanner.after, hnext]
      rfl
    obtain ⟨before', hat⟩ := htook.at fun b hb => hascii 1 (by omega) l' (hstep 0) b hb
    obtain ⟨l'', before'', hafter, hat'⟩ := ih hat fun k hk l'' hl'' =>
      hascii (k + 1) (by omega) l'' ((hstep k).trans hl'')
    exact ⟨l'', before'', (hstep n).trans hafter, hat'⟩

end

end ByteScanner

end Solo
