import Solo.Proofs.Lexing

/-! Where tokens stand in a text. A place is given by what stands before it: one line more than there
are line feeds, and one column more than there are characters behind the last of them. The readings of
a text tell where the characters of each token are, and between them there are only blanks. -/

namespace Solo

namespace Position

/-- The place behind `cs`, which a text starts with. -/
def behind (cs : List Char) : Position :=
  ⟨cs.count '\n' + 1, (cs.reverse.takeWhile (· ≠ '\n')).length + 1⟩

theorem behind_concat (cs : List Char) (c : Char) : (behind cs).after c = behind (cs ++ [c]) := by
  by_cases hc : c = '\n' <;> simp [after, behind, hc]

theorem behind_append (cs ds : List Char) : (behind cs).afterAll ds = behind (cs ++ ds) := by
  induction ds generalizing cs with
  | nil => rw [List.append_nil]; rfl
  | cons d ds ih =>
    rw [List.append_cons, ← ih, ← behind_concat]
    rfl

end Position

open Position (behind)

/-- The token is written `cs`. -/
def Token.SpelledBy : Token → List Char → Prop
  | .number value, cs => cs ≠ [] ∧ (∀ c ∈ cs, c.isDigit) ∧ Numeral.word cs = .ok value
  | .ident name _, cs => name.toList = cs
  | .keyword k, cs => k.text.toList = cs
  | .punct p, cs => p.text.toList = cs
  | .eof, cs => cs = []

theorem Keyword.text_of_ofWord? {w : String} {k : Keyword} (h : ofWord? w = some k) : k.text = w := by
  unfold ofWord? at h
  split at h <;> cases h <;> rfl

theorem Punct.text_of_ofChar? {c : Char} {p : Punct} (h : ofChar? c = some p) : p.text.toList = [c] := by
  unfold ofChar? at h
  split at h <;> cases h <;> rfl

namespace Scanner

theorem rest_eq_take_skip (s : Scanner) (n : Nat) : s.rest = s.rest.take n ++ (s.skip n).rest :=
  (List.take_append_drop n s.rest).symm

theorem take_takeWhile (p : Char → Bool) (c : Char) (cs : List Char) :
    (c :: cs).take (c :: cs.takeWhile p).length = c :: cs.takeWhile p := by
  have htake := List.prefix_iff_eq_take.1 (List.takeWhile_prefix p (l := cs))
  rw [List.length_cons, List.take_succ_cons, ← htake]

/-- What is read as a token is written there. -/
theorem token_spelled {s s' : Scanner} {t : Token} (h : s.token = (.ok t, s')) :
    ∃ n, t.SpelledBy (s.rest.take n) ∧ s'.rest = (s.skip n).rest ∧ s'.pos = (s.skip n).pos := by
  unfold token at h
  split at h
  · next hr =>
    cases h
    exact ⟨0, rfl, rfl, rfl⟩
  · next hr =>
    cases h
    exact ⟨2, by rw [hr]; rfl, rfl, rfl⟩
  · next hr =>
    cases h
    exact ⟨1, by rw [hr]; rfl, rfl, rfl⟩
  · next hr =>
    cases h
    exact ⟨2, by rw [hr]; rfl, rfl, rfl⟩
  · cases h
  · next c cs _ _ _ _ hr =>
    split at h
    · next hdigit =>
      dsimp only at h
      split at h
      · next value hvalue =>
        cases h
        refine ⟨_, ?_, rfl, rfl⟩
        rw [hr, take_takeWhile]
        have hdigits := List.all_eq_true.1 (List.all_takeWhile (p := Char.isDigit) (l := cs))
        exact ⟨by simp, List.forall_mem_cons.2 ⟨hdigit, hdigits⟩, hvalue⟩
      · cases h
    · split at h
      · refine ⟨(c :: cs.takeWhile isWordPart).length, ?_⟩
        rw [hr, take_takeWhile]
        simp only [word] at h
        split at h
        · next k hk =>
          cases h
          exact ⟨by rw [Token.SpelledBy, Keyword.text_of_ofWord? hk]; simp, rfl, rfl⟩
        · cases h
          exact ⟨by simp [Token.SpelledBy], rfl, rfl⟩
      · split at h
        · next p hp =>
          cases h
          exact ⟨1, by rw [hr]; exact Punct.text_of_ofChar? hp, rfl, rfl⟩
        · cases h

/-- The end is read only where nothing is left. -/
theorem rest_of_token_eof {s s' : Scanner} (h : s.token = (.ok .eof, s')) : s.rest = [] := by
  refine Decidable.byContradiction fun hne => ?_
  obtain ⟨n, -, ⟨r, he, hr⟩ | ⟨x, he⟩⟩ := s.token_eq hne
  · rw [he, Prod.mk.injEq] at h
    exact (hr .eof h.1).2 rfl
  · rw [he] at h
    cases h

/-- Blanks are skipped as far as there are any. -/
theorem skipBlanks_eq (s : Scanner) : ∃ blanks, (∀ c ∈ blanks, isBlank c = true) ∧
    s.rest = blanks ++ s.skipBlanks.rest ∧ s.skipBlanks.pos = s.pos.afterAll blanks := by
  have htake := List.prefix_iff_eq_take.1 (List.takeWhile_prefix isBlank (l := s.rest))
  refine ⟨s.rest.takeWhile isBlank, List.all_eq_true.1 List.all_takeWhile, ?_, ?_⟩
  · rw [htake]
    exact s.rest_eq_take_skip _
  · rw [htake]
    rfl

theorem next_pos {s s' : Scanner} {pos : Position} {r : Except ScanError Token}
    (h : s.next = (⟨pos, r⟩, s')) : pos = s.skipBlanks.pos ∧ s.skipBlanks.token = (r, s') := by
  simp only [next, Prod.mk.injEq, Reading.mk.injEq] at h
  obtain ⟨⟨rfl, rfl⟩, rfl⟩ := h
  exact ⟨rfl, rfl⟩

end Scanner

namespace TokenStream

/-- In a text that goes on with `rest` behind `before`, the tokens `ls` stand one after the other with
only blanks between them, each where it is said to stand, and then comes `ending`. -/
inductive LaidOut : (before rest : List Char) → List Lexeme → Ending → Prop where
  | eof {before blanks : List Char} (h : ∀ c ∈ blanks, Scanner.isBlank c) :
      LaidOut before blanks [] (.eof (behind (before ++ blanks)))
  | stuck {before blanks rest : List Char} {error : ScanError} (h : ∀ c ∈ blanks, Scanner.isBlank c) :
      LaidOut before (blanks ++ rest) [] (.stuck (behind (before ++ blanks)) error)
  | token {before blanks cs rest : List Char} {t : Token} {ls : List Lexeme} {ending : Ending}
      (h : ∀ c ∈ blanks, Scanner.isBlank c) (spelled : t.SpelledBy cs)
      (more : LaidOut (before ++ blanks ++ cs) rest ls ending) :
      LaidOut before (blanks ++ cs ++ rest) (⟨behind (before ++ blanks), t⟩ :: ls) ending

theorem laidOut_of_yields {s : Scanner} {ls : List Lexeme} {ending : Ending} {symbols : SymbolTable}
    (h : s.Yields ls ending symbols) :
    ∀ before, s.pos = behind before → LaidOut before s.rest ls ending := by
  induction h with
  | @eof s s' pos h =>
    intro before hbefore
    obtain ⟨blanks, hblanks, hrest, hpos⟩ := s.skipBlanks_eq
    obtain ⟨rfl, htoken⟩ := Scanner.next_pos h
    have hend := Scanner.rest_of_token_eof htoken
    rw [hrest, hend, hpos, hbefore, Position.behind_append, List.append_nil]
    exact .eof hblanks
  | @stuck s s' pos error h =>
    intro before hbefore
    obtain ⟨blanks, hblanks, hrest, hpos⟩ := s.skipBlanks_eq
    obtain ⟨rfl, -⟩ := Scanner.next_pos h
    rw [hrest, hpos, hbefore, Position.behind_append]
    exact .stuck hblanks
  | @token s s' pos t ls ending symbols h ht _ ih =>
    intro before hbefore
    obtain ⟨blanks, hblanks, hrest, hpos⟩ := s.skipBlanks_eq
    obtain ⟨rfl, htoken⟩ := Scanner.next_pos h
    obtain ⟨n, hspelled, hrest', hpos'⟩ := Scanner.token_spelled htoken
    rw [hbefore, Position.behind_append] at hpos
    have hmore := ih (before ++ blanks ++ s.skipBlanks.rest.take n) (by
      rw [hpos', ← Position.behind_append, ← hpos]
      rfl)
    rw [hrest'] at hmore
    rw [hrest, s.skipBlanks.rest_eq_take_skip n, ← List.append_assoc, hpos]
    exact .token hblanks hspelled hmore

end TokenStream

end Solo
