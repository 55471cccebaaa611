import Solo.Proofs.Writing

/-! The scanner takes the longest token there is. What it reads as a token is written as an item is, and
the character behind it would not be read as part of it. An item that is longer than another one and
begins with it goes on with such a character; so of all items that a text begins with, the one that is
read is the longest. -/

namespace Solo

theorem Numeral.digit_lt {c : Char} (hc : c.isDigit = true) : c.toNat - '0'.toNat < 10 := by
  have hnine : '9'.toNat = '0'.toNat + 9 := rfl
  have hle := (Char.isDigit_iff_toNat.1 hc).2
  omega

theorem Numeral.toDigits_digit {c : Char} (hc : c.isDigit = true) :
    Nat.toDigits 10 (c.toNat - '0'.toNat) = [c] := by
  have hle := (Char.isDigit_iff_toNat.1 hc).1
  have hzero : '0'.toNat = 48 := rfl
  rw [Nat.toDigits_of_lt_base (digit_lt hc)]
  refine congrArg (· :: []) (Char.toNat_inj.1 ?_)
  rw [Nat.toNat_digitChar_of_lt_ten (digit_lt hc)]
  omega

/-- Digits behind those of a number that is not zero are the last digits of a number. -/
theorem Numeral.toDigits_append {ds : List Char} (hds : ∀ c ∈ ds, c.isDigit = true) {acc : Nat}
    (hacc : 0 < acc) : Nat.toDigits 10 acc ++ ds = Nat.toDigits 10 (Nat.ofDigitChars 10 ds acc) := by
  induction ds generalizing acc with
  | nil => rw [List.append_nil, Nat.ofDigitChars_nil]
  | cons c ds ih =>
    obtain ⟨hc, hds⟩ := List.forall_mem_cons.1 hds
    have hstep := Nat.toDigits_append_toDigits (by decide) hacc (digit_lt hc)
    rw [Nat.ofDigitChars_cons, ← ih hds (by omega), ← hstep, toDigits_digit hc, List.append_assoc]
    rfl

/-- Digits are zeros and then the digits of their value. -/
theorem Numeral.exists_zeros {ds : List Char} (hne : ds ≠ []) (hds : ∀ c ∈ ds, c.isDigit = true) :
    ∃ zeros, ds = List.replicate zeros '0' ++ Nat.toDigits 10 (Nat.ofDigitChars 10 ds 0) := by
  induction ds with
  | nil => exact absurd rfl hne
  | cons c ds ih =>
    obtain ⟨hc, hds⟩ := List.forall_mem_cons.1 hds
    rw [Nat.ofDigitChars_cons, Nat.mul_zero, Nat.zero_add]
    by_cases hend : ds = []
    · refine ⟨0, ?_⟩
      rw [hend, Nat.ofDigitChars_nil, toDigits_digit hc]
      rfl
    by_cases hzero : c.toNat - '0'.toNat = 0
    · obtain ⟨zeros, hzeros⟩ := ih hend hds
      have hc0 : c = '0' := by
        have hdigit := toDigits_digit hc
        rw [hzero] at hdigit
        simpa using hdigit.symm
      refine ⟨zeros + 1, ?_⟩
      rw [hzero, List.replicate_succ, List.cons_append, ← hzeros, hc0]
    · refine ⟨0, ?_⟩
      rw [← toDigits_append hds (by omega), toDigits_digit hc]
      rfl

namespace Item

open Scanner

theorem head_punct (p : Punct) :
    ∀ c ∈ (punct p).chars.head?, c.isDigit = false ∧ isWordStart c = false := by
  cases p <;> simp [chars, Punct.text, isWordStart]

/-- What begins like a number is one. -/
theorem isNumber_of_head {i : Item} {c : Char} {cs : List Char} (h : i.chars = c :: cs)
    (hc : c.isDigit = true) : i.IsNumber := by
  by_cases hword : i.IsWord
  · obtain ⟨d, ds, hchars, hstart, -⟩ := exists_word hword
    obtain ⟨rfl, -⟩ := List.cons.inj (h.symm.trans hchars)
    simp [isDigit_of_isWordStart hstart] at hc
  · cases i with
    | number _ _ => trivial
    | punct p =>
      have hhead := (head_punct p c (by rw [h]; rfl)).1
      simp [hhead] at hc
    | _ => exact absurd trivial hword

/-- What begins like a word is one. -/
theorem isWord_of_head {i : Item} {c : Char} {cs : List Char} (h : i.chars = c :: cs)
    (hc : isWordStart c = true) : i.IsWord := by
  cases i with
  | number zeros value =>
    have hdigit := isDigit_number zeros value c (by rw [h]; simp)
    simp [isDigit_of_isWordStart hc] at hdigit
  | punct p =>
    have hhead := (head_punct p c (by rw [h]; rfl)).2
    simp [hhead] at hc
  | _ => trivial

/-- What is written with one equals sign or one exclamation mark is an assignment sign. -/
theorem eq_assign_of_chars {i : Item} {c : Char} (h : i.chars = [c]) (hc : c = '=' ∨ c = '!') :
    i = punct .assign := by
  have hword : ¬ i.IsWord := by
    intro hword
    obtain ⟨d, ds, hchars, hstart, -⟩ := exists_word hword
    obtain ⟨rfl, -⟩ := List.cons.inj (h.symm.trans hchars)
    rcases hc with rfl | rfl <;> simp [isWordStart] at hstart
  cases i with
  | number zeros value =>
    have hdigit := isDigit_number zeros value c (by rw [h]; simp)
    rcases hc with rfl | rfl <;> simp at hdigit
  | punct p =>
    cases p <;> rcases hc with rfl | rfl <;> simp [chars, Punct.text] at h
    rfl
  | _ => exact absurd trivial hword

/-- An item that begins with another one goes on with what belongs to that one too. -/
theorem extends_of_append {i j : Item} {c : Char} {cs : List Char} (h : j.chars = i.chars ++ c :: cs) :
    i.Extends c := by
  obtain ⟨d, ds, hi⟩ := List.exists_cons_of_ne_nil i.chars_ne_nil
  rw [hi, List.cons_append] at h
  have hmem : c ∈ ds ++ c :: cs := by simp
  by_cases hword : j.IsWord
  · obtain ⟨e, es, hchars, hstart, hparts⟩ := exists_word hword
    obtain ⟨rfl, rfl⟩ := List.cons.inj (hchars.symm.trans h)
    have hiword := isWord_of_head hi hstart
    cases i with
    | name _ | keyword _ => exact hparts c hmem
    | _ => exact absurd hiword id
  · cases j with
    | number zeros value =>
      have hdigits := isDigit_number zeros value
      rw [h] at hdigits
      obtain ⟨hd, hdigits⟩ := List.forall_mem_cons.1 hdigits
      have hnumber := isNumber_of_head hi hd
      cases i with
      | number _ _ => exact hdigits c hmem
      | _ => exact absurd hnumber id
    | punct p =>
      have htwo : (d = '=' ∨ d = '!') ∧ ds = [] ∧ c = '=' := by
        cases p <;> simp [chars, Punct.text, List.cons_eq_append_iff] at h <;> simp [← h.1, h.2]
      obtain ⟨hd, rfl, rfl⟩ := htwo
      rw [eq_assign_of_chars hi hd]
      exact ⟨rfl, rfl⟩
    | _ => exact absurd trivial hword

/-- Of the items that a text begins with, none is longer than one that the text does not go on. -/
theorem length_le_of_prefix {i j : Item} {rest : List Char} (hstop : ∀ c ∈ rest.head?, ¬ i.Extends c)
    (h : j.chars <+: i.chars ++ rest) : j.chars.length ≤ i.chars.length := by
  refine Nat.le_of_not_lt fun hlt => ?_
  obtain ⟨cs, hcs⟩ :=
    List.prefix_of_prefix_length_le (List.prefix_append i.chars rest) h (Nat.le_of_lt hlt)
  cases cs with
  | nil =>
    rw [List.append_nil] at hcs
    rw [hcs] at hlt
    exact Nat.lt_irrefl _ hlt
  | cons c cs =>
    rw [← hcs] at h
    obtain ⟨more, rfl⟩ := (List.prefix_append_right_inj _).1 h
    exact hstop c rfl (extends_of_append hcs.symm)

/-- Digits that are read as a number are a number as it is written. -/
theorem exists_number {ds : List Char} {w : Word} (hne : ds ≠ []) (hds : ∀ c ∈ ds, c.isDigit = true)
    (h : Numeral.word ds = .ok w) :
    ∃ zeros value, (number zeros value).chars = ds ∧ w = .ofSize value := by
  have hlt := Numeral.lt_of_word hne hds h
  obtain ⟨zeros, hzeros⟩ := Numeral.exists_zeros hne hds
  refine ⟨zeros, ⟨_, hlt⟩, hzeros.symm, ?_⟩
  rw [Numeral.word_eq_ok hne hds hlt] at h
  exact (Except.ok.inj h).symm

end Item

/-- What has the shape of a name and is no keyword is a name. -/
def Name.ofChars (c : Char) (cs : List Char) (hc : Scanner.isWordStart c = true)
    (hcs : ∀ d ∈ cs, Scanner.isWordPart d = true)
    (h : Keyword.ofWord? (String.ofList (c :: cs)) = none) : Name where
  text := String.ofList (c :: cs)
  shape := ⟨c, cs, String.toList_ofList, by simpa [Scanner.isWordStart] using hc,
    by simpa [Scanner.isWordPart] using hcs⟩
  free := by
    intro k hk
    rw [← hk] at h
    cases k <;> cases h

namespace Scanner

/-- What is left behind the characters of a kind in front is nothing or does not begin with another. -/
theorem not_head_dropWhile (p : Char → Bool) (cs : List Char) :
    ∀ c ∈ (cs.dropWhile p).head?, ¬ p c = true := by
  intro c hc hp
  have hfalse := List.head?_dropWhile_not p cs
  rw [Option.mem_def.1 hc] at hfalse
  simp [hp] at hfalse

theorem drop_takeWhile (p : Char → Bool) (cs : List Char) :
    cs.drop (cs.takeWhile p).length = cs.dropWhile p := by
  have hsplit := List.takeWhile_append_dropWhile (p := p) (l := cs)
  exact (congrArg (List.drop _) hsplit).symm.trans List.drop_left

theorem rest_skip_takeWhile {s : Scanner} {c : Char} {cs : List Char} (hs : s.rest = c :: cs)
    (p : Char → Bool) : (s.skip (c :: cs.takeWhile p).length).rest = cs.dropWhile p := by
  rw [skip, hs, List.length_cons, List.drop_succ_cons]
  exact drop_takeWhile p cs

/-- What is read as a token is an item, and what follows does not belong to it. -/
theorem item_of_token {s s' : Scanner} {t : Token} (h : s.token = (.ok t, s')) (ht : t ≠ .eof) :
    ∃ i : Item, t = i.token (fun x => (s.symbols.intern x).1) ∧ s.rest = i.chars ++ s'.rest ∧
      ∀ c ∈ s'.rest.head?, ¬ i.Extends c := by
  unfold token at h
  split at h
  · cases h
    exact absurd rfl ht
  · next hr =>
    cases h
    exact ⟨.punct .eq, rfl, by rw [skip, hr]; rfl, by simp [Item.Extends]⟩
  · next cs hne hr =>
    cases h
    refine ⟨.punct .assign, rfl, by rw [skip, hr]; rfl, ?_⟩
    rintro c hc ⟨-, rfl⟩
    rw [skip, hr] at hc
    obtain ⟨ds, rfl⟩ := List.head?_eq_some_iff.1 hc
    exact hne ds rfl
  · next hr =>
    cases h
    exact ⟨.punct .ne, rfl, by rw [skip, hr]; rfl, by simp [Item.Extends]⟩
  · cases h
  · next c cs _ _ _ _ hr =>
    split at h
    · next hdigit =>
      dsimp only at h
      split at h
      · next value hvalue =>
        cases h
        have hdigits := List.all_eq_true.1 (List.all_takeWhile (p := Char.isDigit) (l := cs))
        obtain ⟨zeros, value, hchars, rfl⟩ :=
          Item.exists_number (by simp) (List.forall_mem_cons.2 ⟨hdigit, hdigits⟩) hvalue
        refine ⟨.number zeros value, rfl, ?_, ?_⟩
        · rw [rest_skip_takeWhile hr, hchars, hr, List.cons_append, List.takeWhile_append_dropWhile]
        · rw [rest_skip_takeWhile hr]
          exact not_head_dropWhile _ _
      · cases h
    · split at h
      · next hstart =>
        have hparts := List.all_eq_true.1 (List.all_takeWhile (p := isWordPart) (l := cs))
        have hrest := rest_skip_takeWhile hr isWordPart
        have hstop := not_head_dropWhile isWordPart cs
        simp only [word] at h
        split at h
        · next k hk =>
          cases h
          refine ⟨.keyword k, rfl, ?_, ?_⟩
          · rw [hrest, Item.chars, Keyword.text_of_ofWord? hk, hr, String.toList_ofList,
              List.cons_append, List.takeWhile_append_dropWhile]
          · rw [hrest]
            exact hstop
        · next hk =>
          cases h
          refine ⟨.name (.ofChars c _ hstart hparts hk), rfl, ?_, ?_⟩
          · rw [hrest, Item.chars, Name.ofChars, hr, String.toList_ofList, List.cons_append,
              List.takeWhile_append_dropWhile]
          · rw [hrest]
            exact hstop
      · split at h
        · next p hp =>
          cases h
          refine ⟨.punct p, rfl, ?_, ?_⟩
          · rw [skip, hr, Item.chars, Punct.text_of_ofChar? hp]
            rfl
          · rintro d - ⟨rfl, -⟩
            unfold Punct.ofChar? at hp
            split at hp <;> cases hp
        · cases h

/-- The token that is read is the longest that the text begins with. -/
theorem token_longest {s s' : Scanner} {t : Token} (h : s.token = (.ok t, s')) (ht : t ≠ .eof) :
    ∃ i : Item, t = i.token (fun x => (s.symbols.intern x).1) ∧ s.rest = i.chars ++ s'.rest ∧
      ∀ j : Item, j.chars <+: s.rest → j.chars.length ≤ i.chars.length := by
  obtain ⟨i, htoken, hrest, hstop⟩ := item_of_token h ht
  refine ⟨i, htoken, hrest, fun j hj => ?_⟩
  rw [hrest] at hj
  exact Item.length_le_of_prefix hstop hj

end Scanner

end Solo
