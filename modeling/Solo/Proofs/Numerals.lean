import Solo.Text.Numeral

/-! The value of a string of digits. Reading digits one after the other gives their value in decimal,
if that is not out of range; leading zeros add nothing to it. -/

namespace Solo

namespace Numeral

/-- A value only grows by reading on. -/
theorem le_ofDigitChars (ds : List Char) (acc : Nat) : acc ≤ Nat.ofDigitChars 10 ds acc := by
  rw [Nat.ofDigitChars_eq_ofDigitChars_zero]
  exact Nat.le_trans (Nat.le_mul_of_pos_left acc (Nat.pow_pos (by decide))) (Nat.le_add_right _ _)

theorem ofDigitChars_zeros (n : Nat) (ds : List Char) :
    Nat.ofDigitChars 10 (List.replicate n '0' ++ ds) 0 = Nat.ofDigitChars 10 ds 0 := by
  induction n with
  | zero => rfl
  | succ n ih =>
    rw [List.replicate_succ, List.cons_append, Nat.ofDigitChars_cons]
    exact ih

theorem digits_eq_ok {lo hi : Int} {ds : List Char} {acc : Nat} (hds : ∀ c ∈ ds, c.isDigit = true)
    (hlo : lo ≤ 0) (hhi : (Nat.ofDigitChars 10 ds acc : Int) ≤ hi) :
    digits lo hi 1 acc ds = .ok (Nat.ofDigitChars 10 ds acc : Nat) := by
  induction ds generalizing acc with
  | nil => rw [digits, Nat.ofDigitChars_nil]
  | cons c ds ih =>
    obtain ⟨hc, hds⟩ := List.forall_mem_cons.1 hds
    rw [Nat.ofDigitChars_cons] at hhi ⊢
    have hacc : 10 * (acc : Int) + 1 * (c.toNat - '0'.toNat : Nat) =
        (10 * acc + (c.toNat - '0'.toNat) : Nat) := by
      omega
    have hle := le_ofDigitChars ds (10 * acc + (c.toNat - '0'.toNat))
    rw [digits, if_pos hc]
    simp only [hacc]
    rw [if_neg (by omega), if_neg (by omega)]
    exact ih hds hhi

/-- Digits that are read have the value that they are read as, and it is in range. -/
theorem eq_ofDigitChars_of_digits {lo hi value : Int} {ds : List Char} {acc : Nat}
    (h : digits lo hi 1 acc ds = .ok value) (hacc : (acc : Int) ≤ hi) :
    value = (Nat.ofDigitChars 10 ds acc : Nat) ∧ value ≤ hi := by
  induction ds generalizing acc with
  | nil =>
    rw [digits] at h
    cases h
    exact ⟨by rw [Nat.ofDigitChars_nil], hacc⟩
  | cons c ds ih =>
    have hnext : 10 * (acc : Int) + 1 * (c.toNat - '0'.toNat : Nat) =
        (10 * acc + (c.toNat - '0'.toNat) : Nat) := by
      omega
    simp only [digits, hnext] at h
    split at h
    · split at h
      · cases h
      · split at h
        · cases h
        · rw [Nat.ofDigitChars_cons]
          exact ih h (by omega)
    · cases h

/-- Without a sign a word is read off the digits. -/
theorem word_digits {ds : List Char} (hne : ds ≠ []) (hds : ∀ c ∈ ds, c.isDigit = true) :
    word ds = (digits Int32.minValue.toInt Int32.maxValue.toInt 1 (0 : Nat) ds).map Int32.ofInt := by
  have hplus : '+' ∉ ds := fun h => by simpa using hds '+' h
  have hminus : '-' ∉ ds := fun h => by simpa using hds '-' h
  unfold word
  split
  · exact absurd rfl hne
  · simp at hplus
  · simp at hminus
  · simp at hplus
  · simp at hminus
  · rfl

/-- Digits are read as the word of their value, if there is one. -/
theorem word_eq_ok {ds : List Char} (hne : ds ≠ []) (hds : ∀ c ∈ ds, c.isDigit = true)
    (hvalue : Nat.ofDigitChars 10 ds 0 < Word.sizeLimit) :
    word ds = .ok (.ofSize (Nat.ofDigitChars 10 ds 0)) := by
  have hmax : (Nat.ofDigitChars 10 ds 0 : Int) ≤ Int32.maxValue.toInt := by
    rw [show Int32.maxValue.toInt = 2147483647 by decide]
    rw [Word.sizeLimit] at hvalue
    omega
  have hread : digits Int32.minValue.toInt Int32.maxValue.toInt 1 (0 : Nat) ds = _ :=
    digits_eq_ok hds (by decide) hmax
  rw [word_digits hne hds, hread]
  exact congrArg Except.ok Int32.ofInt_eq_ofNat

/-- Digits that are read as a word have a value that is one. -/
theorem lt_of_word {ds : List Char} {w : Word} (hne : ds ≠ []) (hds : ∀ c ∈ ds, c.isDigit = true)
    (h : word ds = .ok w) : Nat.ofDigitChars 10 ds 0 < Word.sizeLimit := by
  rw [word_digits hne hds] at h
  cases hread : digits Int32.minValue.toInt Int32.maxValue.toInt 1 (0 : Nat) ds with
  | error e =>
    rw [hread] at h
    cases h
  | ok value =>
    obtain ⟨hvalue, hle⟩ := eq_ofDigitChars_of_digits hread (by decide)
    rw [show Int32.maxValue.toInt = 2147483647 by decide] at hle
    rw [Word.sizeLimit]
    omega

end Numeral

end Solo
