import Solo.Proofs.Numerals
import Solo.Proofs.Viability

/-! Reading undoes writing. Tokens are written one after the other, with blanks wherever one likes and
at least one between two that would otherwise be read as one. What the scanner reads off such a text is
the tokens that were written, each name with the slot of its first occurrence, and then the end of file
as often as it is asked for. -/

namespace Solo

namespace Scanner

/-- What the first `n` readings give. -/
def answers : Nat → Scanner → List (Except ScanError Token)
  | 0, _ => []
  | n + 1, s => s.next.1.token :: answers n s.next.2

end Scanner

/-- A letter or an underscore, then letters, digits and underscores, and no keyword. -/
structure Name where
  text : String
  shape : ∃ c cs, text.toList = c :: cs ∧ (c.isAlpha ∨ c = '_') ∧ ∀ d ∈ cs, d.isAlphanum ∨ d = '_'
  free : ∀ k : Keyword, k.text ≠ text

/-- A token that is to be written. -/
inductive Item where
  /-- A number that is a word, with so many zeros before its digits. -/
  | number (zeros : Nat) (value : Fin Word.sizeLimit)
  | name (x : Name)
  | keyword (k : Keyword)
  | punct (p : Punct)

namespace Item

/-- How the item is written. -/
def chars : Item → List Char
  | .number zeros value => List.replicate zeros '0' ++ Nat.toDigits 10 value
  | .name x => x.text.toList
  | .keyword k => k.text.toList
  | .punct p => p.text.toList

def name? : Item → Option String
  | .name x => some x.text
  | _ => none

/-- How the item is read, when names have the slots that `slot` gives. -/
def token (slot : String → Nat) : Item → Token
  | .number _ value => .number (.ofSize value)
  | .name x => .ident x.text (slot x.text)
  | .keyword k => .keyword k
  | .punct p => .punct p

def IsWord : Item → Prop
  | .name _ | .keyword _ => True
  | _ => False

def IsNumber : Item → Prop
  | .number _ _ => True
  | _ => False

/-- The pairs between which a blank is needed. -/
def Clings (i j : Item) : Prop :=
  match i with
  | .name _ | .keyword _ => j.IsWord ∨ j.IsNumber
  | .number _ _ => j.IsNumber
  | .punct p => p = .assign ∧ (j = .punct .assign ∨ j = .punct .eq)

/-- The slot of a name is its index among the distinct names. -/
def slotAmong (items : List Item) (x : String) : Nat := (items.filterMap name?).eraseDups.idxOf x

/-- The text `cs`, which follows the item `before` if there is one, is `items` with blanks around
them. -/
inductive Written : (before : Option Item) → (items : List Item) → (cs : List Char) → Prop where
  | nil {before : Option Item} {blanks : List Char} (h : ∀ c ∈ blanks, Scanner.isBlank c) :
      Written before [] blanks
  | cons {before : Option Item} {i : Item} {items : List Item} {blanks cs : List Char}
      (h : ∀ c ∈ blanks, Scanner.isBlank c) (apart : ∀ j ∈ before, j.Clings i → blanks ≠ [])
      (more : Written (some i) items cs) : Written before (i :: items) (blanks ++ i.chars ++ cs)

/-- The character would be read as part of the item if it stood right behind it. -/
def Extends (c : Char) : Item → Prop
  | .number _ _ => c.isDigit
  | .name _ | .keyword _ => Scanner.isWordPart c
  | .punct p => p = .assign ∧ c = '='

end Item

namespace Scanner

theorem isDigit_of_isWordStart {c : Char} (h : isWordStart c = true) : c.isDigit = false := by
  -- the digits come before all letters
  have hlarge : ∀ v : UInt32, '9'.val < v → v ≤ c.val → c.isDigit = false := by
    intro v hv hc
    refine Bool.eq_false_iff.2 fun hdigit => ?_
    have hle : c.val ≤ '9'.val := of_decide_eq_true ((Bool.and_eq_true _ _).mp hdigit).2
    exact UInt32.lt_irrefl _ (UInt32.lt_of_lt_of_le hv (UInt32.le_trans hc hle))
  rcases (Bool.or_eq_true _ _).mp h with halpha | hunderscore
  · rcases (Bool.or_eq_true _ _).mp halpha with hupper | hlower
    · exact hlarge 'A'.val (by decide) (of_decide_eq_true hupper).1
    · exact hlarge 'a'.val (by decide) (of_decide_eq_true ((Bool.and_eq_true _ _).mp hlower).1)
  · obtain rfl := of_decide_eq_true hunderscore
    rfl

theorem isWordPart_of_isWordStart {c : Char} (h : isWordStart c = true) : isWordPart c = true := by
  simp only [isWordStart, isWordPart, Char.isAlphanum, Bool.or_eq_true] at h ⊢
  rcases h with halpha | hunderscore
  · exact .inl (.inl halpha)
  · exact .inr hunderscore

/-- A blank ends whatever stands before it. -/
theorem not_extends_blank {c : Char} (h : isBlank c = true) (i : Item) : ¬ i.Extends c := by
  simp only [isBlank, Bool.or_eq_true, decide_eq_true_eq] at h
  rcases h with (((rfl | rfl) | rfl) | rfl) | rfl <;> cases i <;> simp [Item.Extends, isWordPart]

section

variable {s : Scanner} {c : Char} {cs : List Char}

theorem token_digits {n : Word} (hs : s.rest = c :: cs) (hc : c.isDigit = true)
    (hvalue : Numeral.word (c :: cs.takeWhile Char.isDigit) = .ok n) :
    s.token = (.ok (.number n), s.skip (c :: cs.takeWhile Char.isDigit).length) := by
  unfold token
  rw [hs]
  split
  · next h => cases h
  · next h => cases h; simp at hc
  · next h => cases h; simp at hc
  · next h => cases h; simp at hc
  · next h => cases h; simp at hc
  · next h =>
    cases h
    simp only [hc, if_true, hvalue]

theorem token_word {w : String} (hs : s.rest = c :: cs) (hc : isWordStart c = true)
    (hw : c :: cs.takeWhile isWordPart = w.toList) :
    s.token = (.ok ((s.skip w.toList.length).word w).1, ((s.skip w.toList.length).word w).2) := by
  unfold token
  rw [hs]
  split
  · next h => cases h
  · next h => cases h; simp [isWordStart] at hc
  · next h => cases h; simp [isWordStart] at hc
  · next h => cases h; simp [isWordStart] at hc
  · next h => cases h; simp [isWordStart] at hc
  · next h =>
    cases h
    simp only [isDigit_of_isWordStart hc, hc, hw, if_true, if_false, Bool.false_eq_true,
      String.ofList_toList]

theorem token_punct {p : Punct} (hs : s.rest = p.text.toList ++ cs)
    (hstop : p = .assign → ∀ c ∈ cs.head?, c ≠ '=') :
    s.token = (.ok (.punct p), s.skip p.text.toList.length) := by
  cases p with
  | assign =>
    unfold token
    rw [hs]
    split
    · next h => cases h
    · next h => cases h; simp at hstop
    · rfl
    · next h => cases h
    · next h => cases h
    · next hassign _ _ h => exact absurd (List.cons.inj h).1.symm hassign
  | _ =>
    simp only [token, hs]
    rfl

end

/-- What stands in front is taken whole if all of it, and not the character behind it, is of a kind. -/
theorem takeWhile_front {α : Type} {p : α → Bool} {cs rest : List α} (hcs : ∀ c ∈ cs, p c = true)
    (hrest : ∀ c ∈ rest.head?, p c ≠ true) : (cs ++ rest).takeWhile p = cs := by
  rw [List.takeWhile_append_of_pos hcs]
  cases rest with
  | nil => simp
  | cons c rest => simp [hrest c rfl]

end Scanner

namespace Item

open Scanner

theorem isDigit_number (zeros : Nat) (value : Fin Word.sizeLimit) :
    ∀ c ∈ (number zeros value).chars, c.isDigit = true := by
  intro c hc
  rcases List.mem_append.1 hc with hzero | hdigit
  · rw [List.eq_of_mem_replicate hzero]
    rfl
  · exact Nat.isDigit_of_mem_toDigits (by decide) (by decide) hdigit

theorem word_number (zeros : Nat) (value : Fin Word.sizeLimit) :
    Numeral.word (number zeros value).chars = .ok (.ofSize value) := by
  have hvalue : Nat.ofDigitChars 10 (number zeros value).chars 0 = value := by
    rw [chars, Numeral.ofDigitChars_zeros, Nat.ofDigitChars_ten_toDigits]
  have hne : (number zeros value).chars ≠ [] := by simp [chars, Nat.toDigits_ne_nil]
  rw [Numeral.word_eq_ok hne (isDigit_number zeros value) (by rw [hvalue]; exact value.isLt), hvalue]

/-- A word begins as words do and goes on as words do. -/
theorem exists_word {i : Item} (h : i.IsWord) :
    ∃ c cs, i.chars = c :: cs ∧ isWordStart c = true ∧ ∀ d ∈ cs, isWordPart d = true := by
  cases i with
  | name x =>
    obtain ⟨c, cs, htext, hc, hcs⟩ := x.shape
    exact ⟨c, cs, htext, by simpa [isWordStart] using hc, by simpa [isWordPart] using hcs⟩
  | keyword k => cases k <;> exact ⟨_, _, rfl, by decide, List.all_eq_true.1 rfl⟩
  | _ => exact absurd h id

theorem not_extends_word {i j : Item} (hj : j.IsWord) (h : ¬ i.Clings j) :
    ∀ c ∈ j.chars.head?, ¬ i.Extends c := by
  intro c hc
  obtain ⟨d, cs, hchars, hstart, -⟩ := exists_word hj
  obtain rfl : d = c := by simpa [hchars] using hc
  cases i with
  | number _ _ => simp [Extends, isDigit_of_isWordStart hstart]
  | punct p =>
    rintro ⟨-, rfl⟩
    simp [isWordStart] at hstart
  | _ => exact absurd (.inl hj) h

/-- An item does not go on with what does not cling to it. -/
theorem not_extends {i j : Item} (h : ¬ i.Clings j) : ∀ c ∈ j.chars.head?, ¬ i.Extends c := by
  cases j with
  | number zeros value =>
    intro c hc
    have hdigit := isDigit_number zeros value c (List.mem_of_mem_head? hc)
    cases i with
    | punct p =>
      rintro ⟨-, rfl⟩
      simp at hdigit
    | number _ _ => exact absurd trivial h
    | _ => exact absurd (.inr trivial) h
  | name x => exact not_extends_word trivial h
  | keyword k => exact not_extends_word trivial h
  | punct p =>
    cases i with
    | punct q => cases p <;> simp_all [Clings, chars, Punct.text, Extends]
    | _ => cases p <;> simp [chars, Punct.text, Extends, isWordPart]

theorem chars_ne_nil (i : Item) : i.chars ≠ [] := by
  cases i with
  | number zeros value => simp [chars, Nat.toDigits_ne_nil]
  | name x =>
    obtain ⟨c, cs, hchars, -⟩ := x.shape
    simp [chars, hchars]
  | keyword k => cases k <;> simp [chars, Keyword.text]
  | punct p => cases p <;> simp [chars, Punct.text]

theorem isBlank_head (i : Item) : ∀ c ∈ i.chars.head?, isBlank c ≠ true := by
  intro c hc hblank
  by_cases hword : i.IsWord
  · obtain ⟨d, cs, hchars, hstart, -⟩ := exists_word hword
    obtain rfl : d = c := by simpa [hchars] using hc
    exact not_extends_blank hblank (.keyword .ifK) (isWordPart_of_isWordStart hstart)
  · cases i with
    | number zeros value =>
      have hdigit := isDigit_number zeros value c (List.mem_of_mem_head? hc)
      exact not_extends_blank hblank (.number zeros value) hdigit
    | punct p => cases p <;> simp [chars, Punct.text] at hc <;> subst hc <;> simp [isBlank] at hblank
    | _ => exact hword trivial

/-- What follows an item in a written text does not belong to it. -/
theorem Written.stops {i : Item} {items : List Item} {cs : List Char}
    (h : Written (some i) items cs) : ∀ c ∈ cs.head?, ¬ i.Extends c := by
  cases h with
  | nil hblanks => exact fun c hc => not_extends_blank (hblanks c (List.mem_of_mem_head? hc)) i
  | @cons _ j items blanks cs hblanks apart _ =>
    intro c hc
    cases blanks with
    | nil =>
      obtain ⟨d, ds, hchars⟩ := List.exists_cons_of_ne_nil j.chars_ne_nil
      refine not_extends (fun hclings => apart i rfl hclings rfl) c ?_
      simpa [hchars] using hc
    | cons b blanks =>
      obtain rfl : b = c := by simpa using hc
      exact not_extends_blank (hblanks b (by simp)) i

end Item

theorem Name.ofWord?_text (x : Name) : Keyword.ofWord? x.text = none := by
  cases h : Keyword.ofWord? x.text with
  | none => rfl
  | some k => exact absurd (Keyword.text_of_ofWord? h) (x.free k)

namespace Scanner

variable {s : Scanner} {i : Item} {cs : List Char}

theorem word_name (x : Name) :
    s.word x.text = (.ident x.text (s.symbols.intern x.text).1,
      { s with symbols := (s.symbols.intern x.text).2 }) := by
  unfold word
  rw [x.ofWord?_text]

theorem word_keyword (k : Keyword) : s.word k.text = (.keyword k, s) := by
  cases k <;> rfl

theorem rest_skip (hs : s.rest = i.chars ++ cs) : (s.skip i.chars.length).rest = cs := by
  rw [skip, hs, List.drop_left]

theorem token_number {zeros : Nat} {value : Fin Word.sizeLimit}
    (hs : s.rest = (Item.number zeros value).chars ++ cs)
    (hstop : ∀ c ∈ cs.head?, ¬ c.isDigit = true) :
    s.token = (.ok (.number (.ofSize value)), s.skip (Item.number zeros value).chars.length) := by
  obtain ⟨c, ds, hchars⟩ := List.exists_cons_of_ne_nil (Item.number zeros value).chars_ne_nil
  have hdigits := Item.isDigit_number zeros value
  have hvalue := Item.word_number zeros value
  rw [hchars] at hs hdigits hvalue ⊢
  have htake := takeWhile_front (List.forall_mem_cons.1 hdigits).2 hstop
  rw [← htake] at hvalue ⊢
  exact token_digits hs (hdigits c (by simp)) hvalue

theorem token_isWord {w : String} (hi : i.IsWord) (hw : i.chars = w.toList)
    (hs : s.rest = i.chars ++ cs) (hstop : ∀ c ∈ cs.head?, ¬ isWordPart c = true) :
    s.token = (.ok ((s.skip i.chars.length).word w).1, ((s.skip i.chars.length).word w).2) := by
  obtain ⟨c, ds, hchars, hstart, hparts⟩ := Item.exists_word hi
  have htake := takeWhile_front hparts hstop
  rw [hchars, List.cons_append] at hs
  have htoken := token_word hs hstart (by rw [htake, ← hchars, hw])
  rw [htoken, hw]

/-- An item is read as the token that it is, whatever slot its name has. -/
theorem token_item (hs : s.rest = i.chars ++ cs) (hstop : ∀ c ∈ cs.head?, ¬ i.Extends c) :
    ∃ k s', s.token = (.ok (i.token fun _ => k), s') ∧ s'.rest = cs := by
  cases i with
  | number zeros value => exact ⟨0, _, token_number hs hstop, rest_skip hs⟩
  | name x =>
    have htoken := token_isWord (i := .name x) trivial rfl hs hstop
    rw [word_name] at htoken
    exact ⟨_, _, htoken, rest_skip hs⟩
  | keyword k =>
    have htoken := token_isWord (i := .keyword k) trivial rfl hs hstop
    rw [word_keyword] at htoken
    exact ⟨0, _, htoken, rest_skip hs⟩
  | punct p => exact ⟨0, _, token_punct hs fun hp c hc heq => hstop c hc ⟨hp, heq⟩, rest_skip hs⟩

theorem rest_skipBlanks {blanks : List Char} (hs : s.rest = blanks ++ cs)
    (hblanks : ∀ c ∈ blanks, isBlank c = true) (hcs : ∀ c ∈ cs.head?, isBlank c ≠ true) :
    s.skipBlanks.rest = cs := by
  rw [skipBlanks, skip, hs, takeWhile_front hblanks hcs, List.drop_left]

theorem next_of_token {s' : Scanner} {r : Except ScanError Token} (h : s.skipBlanks.token = (r, s')) :
    s.next = (⟨s.skipBlanks.pos, r⟩, s') := by
  rw [next, h]

theorem token_nil (hs : s.rest = []) : s.token = (.ok .eof, s) := by
  rw [token, hs]

/-- At the end of the text there is nothing but the end of file. -/
theorem answers_nil (hs : s.rest = []) (n : Nat) : s.answers n = List.replicate n (.ok .eof) := by
  induction n generalizing s with
  | zero => rfl
  | succ n ih =>
    have hrest : s.skipBlanks.rest = [] := by rw [skipBlanks, skip, hs, List.drop_nil]
    rw [answers, next_of_token (token_nil hrest), ih hrest, List.replicate_succ]

theorem Lexes.answers {ts : List Token} {symbols : SymbolTable} (h : s.Lexes ts symbols) (n : Nat) :
    s.answers (ts.length + n) = ts.map .ok ++ List.replicate n (.ok .eof) := by
  induction h with
  | @eof s s' pos h =>
    have htoken := next_eq h
    have hrest := rest_of_token_eof htoken
    rw [token_nil hrest] at htoken
    cases htoken
    cases n with
    | zero => rfl
    | succ n =>
      rw [List.length_nil, Nat.zero_add, Scanner.answers, h, answers_nil hrest, List.map_nil,
        List.nil_append, List.replicate_succ]
  | token h _ _ ih =>
    rw [List.length_cons, Nat.add_right_comm, Scanner.answers, h, ih, List.map_cons, List.cons_append]

end Scanner

namespace Item

open Scanner

variable {before : Option Item} {items : List Item} {cs : List Char}

theorem token_ne_eof (i : Item) (slot : String → Nat) : i.token slot ≠ .eof := by
  cases i <;> simp [token]

theorem reslot_token (i : Item) (slot slot' : String → Nat) :
    (i.token slot').reslot slot = i.token slot := by
  cases i <;> rfl

/-- A written text is read as its items, up to slots. -/
theorem Written.lexes (h : Written before items cs) {s : Scanner} (hs : s.rest = cs) :
    ∃ ts symbols, s.Lexes ts symbols ∧ ∀ slot, ts.map (Token.reslot slot) = items.map (token slot) := by
  induction h generalizing s with
  | @nil _ blanks hblanks =>
    have hrest : s.skipBlanks.rest = [] := rest_skipBlanks (by rw [hs, List.append_nil]) hblanks (by simp)
    exact ⟨[], _, .eof (next_of_token (token_nil hrest)), fun _ => rfl⟩
  | @cons _ i items blanks cs hblanks _ more ih =>
    rw [List.append_assoc] at hs
    have hhead : ∀ c ∈ (i.chars ++ cs).head?, isBlank c ≠ true := by
      intro c hc
      obtain ⟨d, ds, hchars⟩ := List.exists_cons_of_ne_nil i.chars_ne_nil
      exact i.isBlank_head c (by simpa [hchars] using hc)
    obtain ⟨k, s', htoken, hrest⟩ := token_item (rest_skipBlanks hs hblanks hhead) more.stops
    obtain ⟨ts, symbols, hlexes, hts⟩ := ih hrest
    refine ⟨_, _, .token (next_of_token htoken) (i.token_ne_eof _) hlexes, fun slot => ?_⟩
    rw [List.map_cons, List.map_cons, hts slot, reslot_token]

theorem names_token (items : List Item) (slot : String → Nat) :
    (items.map (token slot)).filterMap Token.name? = items.filterMap name? := by
  have hname : Token.name? ∘ token slot = name? := by
    funext i
    cases i <;> rfl
  rw [List.filterMap_map, hname]

end Item

theorem names_reslot (ts : List Token) (slot : String → Nat) :
    (ts.map (Token.reslot slot)).filterMap Token.name? = ts.filterMap Token.name? := by
  have hname : Token.name? ∘ Token.reslot slot = Token.name? := by
    funext t
    cases t <;> rfl
  rw [List.filterMap_map, hname]

/-- Reading a written text gives its items and then the end of file. -/
theorem scanner_undoes_writing {source : String} {items : List Item}
    (h : Item.Written none items source.toList) (n : Nat) :
    (Scanner.ofSource source).answers (items.length + n) =
      items.map (fun i => .ok (i.token (Item.slotAmong items))) ++ List.replicate n (.ok .eof) := by
  obtain ⟨ts, symbols, hlexes, hts⟩ := h.lexes (s := .ofSource source) rfl
  have hslot : slotIn ts = Item.slotAmong items := by
    funext x
    rw [slotIn, distinctNames, ← names_reslot ts fun _ => 0, hts, Item.names_token, Item.slotAmong]
  have htokens : ts = items.map (Item.token (Item.slotAmong items)) := by
    rw [← hts, ← hslot]
    exact (Grammar.Slotted.reslot hlexes.slotIn.2).symm
  have hanswers := hlexes.answers n
  rw [htokens, List.length_map, List.map_map] at hanswers
  exact hanswers

theorem scanner_undoes_writing_munch :
    (Scanner.ofSource "a1=007b!==a1 if===\n").answers 12 =
      [.ok (.ident "a1" 0), .ok (.punct .assign), .ok (.number 7), .ok (.ident "b" 1), .ok (.punct .ne),
        .ok (.punct .assign), .ok (.ident "a1" 0), .ok (.keyword .ifK), .ok (.punct .eq),
        .ok (.punct .assign), .ok .eof, .ok .eof] := by
  let a : Item := .name ⟨"a1", ⟨'a', ['1'], by decide, by decide, by simp⟩,
    fun k => by cases k <;> decide⟩
  let b : Item := .name ⟨"b", ⟨'b', [], by decide, by decide, by simp⟩,
    fun k => by cases k <;> decide⟩
  have hwritten : Item.Written none [a, .punct .assign, .number 2 ⟨7, by decide⟩, b, .punct .ne,
      .punct .assign, a, .keyword .ifK, .punct .eq, .punct .assign] "a1=007b!==a1 if===\n".toList := by
    have hnone : ∀ c ∈ ([] : List Char), Scanner.isBlank c := by simp
    have htext : "a1=007b!==a1 if===\n".toList = [] ++ a.chars ++ ([] ++ (Item.punct .assign).chars ++
        ([] ++ (Item.number 2 ⟨7, by decide⟩).chars ++ ([] ++ b.chars ++ ([] ++ (Item.punct .ne).chars ++
        ([] ++ (Item.punct .assign).chars ++ ([] ++ a.chars ++ ([' '] ++ (Item.keyword .ifK).chars ++
        ([] ++ (Item.punct .eq).chars ++ ([] ++ (Item.punct .assign).chars ++ ['\n']))))))))) := by
      decide +kernel
    rw [htext]
    refine .cons hnone ?_ (.cons hnone ?_ (.cons hnone ?_ (.cons hnone ?_ (.cons hnone ?_ (.cons hnone ?_
      (.cons hnone ?_ (.cons (by simp [Scanner.isBlank]) ?_ (.cons hnone ?_ (.cons hnone ?_
      (.nil (by simp [Scanner.isBlank])))))))))))
    all_goals simp [a, b, Item.Clings, Item.IsWord, Item.IsNumber]
  have hread := scanner_undoes_writing hwritten 2
  exact hread.trans rfl

end Solo
