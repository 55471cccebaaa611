import Solo.Proofs.Tiling

/-! Numbers are read exactly. Where digits stand, a reading takes all of them, however many there are, and
nothing else. Their value decides whether they are a number or out of range, so leading zeros make no
difference; and no name is added. -/

namespace Solo

open Position (behind charAt?)

namespace Scanner

/-- What digits are read as. -/
def literal (ds : List Char) : Except ScanError Token :=
  match Numeral.word ds with
  | .ok w => .ok (.number w)
  | .error _ => .error (.outOfRange (String.ofList ds))

theorem literal_of_le {ds : List Char} (hne : ds ≠ []) (hds : ∀ c ∈ ds, c.isDigit = true)
    (hvalue : Nat.ofDigitChars 10 ds 0 ≤ 2147483647) :
    ∃ w : Word, literal ds = .ok (.number w) ∧ w.toInt = Nat.ofDigitChars 10 ds 0 := by
  have hlt : Nat.ofDigitChars 10 ds 0 < Word.sizeLimit := Nat.lt_succ_of_le hvalue
  refine ⟨.ofSize (Nat.ofDigitChars 10 ds 0), ?_, Int32.toInt_ofNat_of_lt hlt⟩
  rw [literal, Numeral.word_eq_ok hne hds hlt]

theorem literal_of_lt {ds : List Char} (hne : ds ≠ []) (hds : ∀ c ∈ ds, c.isDigit = true)
    (hvalue : 2147483647 < Nat.ofDigitChars 10 ds 0) :
    literal ds = .error (.outOfRange (String.ofList ds)) := by
  cases hword : Numeral.word ds with
  | ok w => exact absurd (Numeral.lt_of_word hne hds hword) (Nat.not_lt.2 hvalue)
  | error e => rw [literal, hword]

theorem skip_front (cs rest : List Char) (pos : Position) (symbols : SymbolTable) :
    skip ⟨cs ++ rest, pos, symbols⟩ cs.length = ⟨rest, pos.afterAll cs, symbols⟩ := by
  simp only [skip, List.drop_left, List.take_left]

variable {before blanks ds rest : List Char} (hblanks : ∀ c ∈ blanks, isBlank c = true) (hne : ds ≠ [])
  (hds : ∀ c ∈ ds, c.isDigit = true) (hrest : ∀ c ∈ rest.head?, ¬ c.isDigit = true)

include hne hds hrest in
theorem token_literal {s : Scanner} (hs : s.rest = ds ++ rest) :
    s.token = (literal ds, s.skip ds.length) := by
  obtain ⟨c, cs, rfl⟩ := List.exists_cons_of_ne_nil hne
  obtain ⟨hc, hcs⟩ := List.forall_mem_cons.1 hds
  have htake : c :: (cs ++ rest).takeWhile Char.isDigit = c :: cs :=
    congrArg (c :: ·) (takeWhile_front hcs hrest)
  unfold literal
  cases hword : Numeral.word (c :: cs) with
  | ok w =>
    rw [← htake] at hword ⊢
    exact token_digits hs hc hword
  | error e =>
    rw [← htake] at hword ⊢
    exact token_outOfRange hs hc hword

include hblanks hne hds in
/-- Blanks are passed over up to the first digit. -/
theorem takeWhile_isBlank : (blanks ++ (ds ++ rest)).takeWhile isBlank = blanks := by
  refine takeWhile_front hblanks fun d hd hblank => ?_
  obtain ⟨c, cs, rfl⟩ := List.exists_cons_of_ne_nil hne
  obtain rfl : c = d := Option.some.inj hd
  exact not_extends_blank hblank (.number 0 ⟨0, by decide⟩) (hds c List.mem_cons_self)

include hblanks hne hds hrest in
theorem next_literal (symbols : SymbolTable) :
    next ⟨blanks ++ (ds ++ rest), behind before, symbols⟩ =
      (⟨behind (before ++ blanks), literal ds⟩, ⟨rest, behind (before ++ blanks ++ ds), symbols⟩) := by
  have hskip : skipBlanks ⟨blanks ++ (ds ++ rest), behind before, symbols⟩ =
      ⟨ds ++ rest, behind (before ++ blanks), symbols⟩ := by
    rw [skipBlanks, takeWhile_isBlank hblanks hne hds, skip_front, Position.behind_append]
  have htoken : token ⟨ds ++ rest, behind (before ++ blanks), symbols⟩ =
      (literal ds, ⟨rest, behind (before ++ blanks ++ ds), symbols⟩) := by
    rw [token_literal hne hds hrest rfl, skip_front, Position.behind_append]
  rw [next_of_token (hskip ▸ htoken), hskip]

end Scanner

namespace ByteScanner

open Scanner (isBlank literal)

variable {before blanks ds rest : List Char} (hblanks : ∀ c ∈ blanks, isBlank c = true) (hne : ds ≠ [])
  (hds : ∀ c ∈ ds, c.isDigit = true) (hrest : ∀ c ∈ rest.head?, ¬ c.isDigit = true)

include hne hds hrest in
theorem At.token_literal {l : ByteScanner} {s : Scanner} (h : At l s before) (hs : s.rest = ds ++ rest) :
    l.token = some (literal ds, l.mark.skip ds.length) := by
  obtain ⟨c, cs, rfl⟩ := List.exists_cons_of_ne_nil hne
  obtain ⟨hc, hcs⟩ := List.forall_mem_cons.1 hds
  have hsmall := Scanner.isDigit_ascii c hc
  have hequals : c ≠ '=' := by rintro rfl; cases hc
  have hbang : c ≠ '!' := by rintro rfl; cases hc
  rw [List.cons_append] at hs
  obtain ⟨hread, hlexeme⟩ := h.mark.readWhile rfl hs hsmall Scanner.isDigit_ascii
  rw [Scanner.takeWhile_front hcs hrest] at hread hlexeme
  simp only [ByteScanner.token, read_of_peek (h.mark.peek_ascii hs hsmall)]
  rw [if_neg hequals, if_neg hbang, if_pos hc, ByteScanner.number, hread]
  simp only [hlexeme, Option.map_some, literal]
  cases Numeral.word (c :: cs) <;> rfl

include hblanks hne hds hrest in
theorem next_literal {source : String} (hsource : source.toList = before ++ (blanks ++ (ds ++ rest)))
    (start : Nat) (symbols : SymbolTable) :
    next ⟨source, (utf8 before).length, start, symbols⟩ =
      some (⟨behind (before ++ blanks), literal ds⟩, ⟨source, (utf8 (before ++ blanks)).length + ds.length,
        (utf8 (before ++ blanks)).length, symbols⟩) := by
  have hat : At ⟨source, (utf8 before).length, start, symbols⟩
      ⟨blanks ++ (ds ++ rest), behind before, symbols⟩ before := ⟨hsource, rfl, rfl, rfl⟩
  have hsource' : source.toList = before ++ blanks ++ (ds ++ rest) := by
    rw [hsource, List.append_assoc]
  have htrim : trim ⟨source, (utf8 before).length, start, symbols⟩ =
      ⟨source, (utf8 (before ++ blanks)).length, start, symbols⟩ := by
    have hascii : ∀ c ∈ blanks, c.toNat < 128 := fun c hc => Scanner.isBlank_ascii c (hblanks c hc)
    rw [trim_eq, hat.run_eq Scanner.isBlank_ascii, Scanner.takeWhile_isBlank hblanks hne hds, skip,
      utf8_append, List.length_append, length_utf8_ascii hascii]
  have hat' : At ⟨source, (utf8 (before ++ blanks)).length, start, symbols⟩
      ⟨ds ++ rest, behind (before ++ blanks), symbols⟩ (before ++ blanks) := ⟨hsource', rfl, rfl, rfl⟩
  have hposition : position? ⟨source, (utf8 (before ++ blanks)).length + ds.length,
      (utf8 (before ++ blanks)).length, symbols⟩ = some (behind (before ++ blanks)) := by
    rw [position?, slice?_before hsource']
    rfl
  simp only [next, htrim, hat'.token_literal hne hds hrest rfl, Option.bind_some, mark, skip, hposition,
    Option.map_some]

end ByteScanner

open Scanner (isBlank)

/-- At any place of any text, behind blanks or none, and whatever names have been read: exactly the digits
that stand there are read, as the number of which they are the decimal digits if that is a word, and else
with an error that quotes them. The place that is told is that of the first digit, and the next reading
starts behind the last one. -/
theorem literals_read_exactly {source : String} {before blanks ds rest : List Char}
    (hsource : source.toList = before ++ (blanks ++ (ds ++ rest)))
    (hblanks : ∀ c ∈ blanks, isBlank c = true) (hne : ds ≠ []) (hds : ∀ c ∈ ds, c.isDigit = true)
    (hrest : ∀ c ∈ rest.head?, ¬ c.isDigit = true) (start : Nat) (symbols : SymbolTable) :
    ∃ token,
      Scanner.next ⟨blanks ++ (ds ++ rest), behind before, symbols⟩ =
        (⟨behind (before ++ blanks), token⟩, ⟨rest, behind (before ++ blanks ++ ds), symbols⟩) ∧
      ByteScanner.next ⟨source, (utf8 before).length, start, symbols⟩ =
        some (⟨behind (before ++ blanks), token⟩,
          ⟨source, (utf8 (before ++ blanks)).length + ds.length, (utf8 (before ++ blanks)).length,
            symbols⟩) ∧
      charAt? source.toList (behind (before ++ blanks)) = ds.head? ∧
      (Nat.ofDigitChars 10 ds 0 ≤ 2147483647 →
        ∃ w : Word, token = .ok (.number w) ∧ w.toInt = Nat.ofDigitChars 10 ds 0) ∧
      (2147483647 < Nat.ofDigitChars 10 ds 0 →
        ∃ e, token = .error e ∧ e.message = "number " ++ String.ofList ds ++ " is out of range") := by
  refine ⟨Scanner.literal ds, Scanner.next_literal hblanks hne hds hrest symbols,
    ByteScanner.next_literal hblanks hne hds hrest hsource start symbols, ?_,
    Scanner.literal_of_le hne hds, fun hvalue => ⟨_, Scanner.literal_of_lt hne hds hvalue, rfl⟩⟩
  obtain ⟨c, cs, rfl⟩ := List.exists_cons_of_ne_nil hne
  have hnewline : c ≠ '\n' := by
    rintro rfl
    cases hds '\n' List.mem_cons_self
  rw [hsource, ← List.append_assoc]
  exact Position.charAt?_behind hnewline _ _

/-- The first number has more digits than the second, which is out of range. -/
theorem literals_read_exactly_zeros : ∃ s first second,
    (Scanner.ofSource "\n000002147483647 2147483648;").next = (first, s) ∧
      first.pos = ⟨2, 1⟩ ∧ first.token = .ok (.number 2147483647) ∧ s.rest = " 2147483648;".toList ∧
      s.next = (second, ⟨[';'], ⟨2, 27⟩, s.symbols⟩) ∧
      second.pos = ⟨2, 17⟩ ∧ ∃ e, second.token = .error e ∧
        e.message = "number 2147483648 is out of range" := by
  obtain ⟨first, hfirst, -, -, hvalue, -⟩ := @literals_read_exactly "\n000002147483647 2147483648;" []
    ['\n'] "000002147483647".toList (' ' :: "2147483648;".toList) (by decide +kernel) (by simp [isBlank])
    (by decide +kernel) (List.all_eq_true.1 (by decide +kernel)) (by simp) 0 .empty
  obtain ⟨second, hsecond, -, -, -, hvalue'⟩ := @literals_read_exactly "\n000002147483647 2147483648;"
    "\n000002147483647".toList [' '] "2147483648".toList [';'] (by decide +kernel) (by simp [isBlank])
    (by decide +kernel) (List.all_eq_true.1 (by decide +kernel)) (by simp) 0 .empty
  obtain ⟨w, rfl, hw⟩ := hvalue (by decide +kernel)
  obtain ⟨e, rfl, he⟩ := hvalue' (by decide +kernel)
  have hw' : w = 2147483647 := Int32.toInt_inj.1 (hw.trans (by decide +kernel))
  have hpos : behind ([] ++ ['\n']) = ⟨2, 1⟩ := by decide +kernel
  have hpos' : behind ("\n000002147483647".toList ++ [' ']) = ⟨2, 17⟩ := by decide +kernel
  refine ⟨_, _, _, hfirst, hpos, by rw [hw'], rfl, hsecond, hpos', e, rfl, ?_⟩
  rw [he]
  decide +kernel

end Solo
