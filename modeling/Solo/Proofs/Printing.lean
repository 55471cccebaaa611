import Solo.Proofs.Numerals

/-! What is written can be read back. A word is written with a minus sign or none and then digits, and
reading them gives the word, the least one included. Pieces of text that each end in a character which
is in none of them are found again by splitting at that character. -/

namespace Solo

namespace Numeral

/-- Counting down is counting up seen from the other side of zero. -/
theorem digits_neg {lo hi value acc : Int} {ds : List Char}
    (h : digits (-hi) (-lo) 1 acc ds = .ok value) : digits lo hi (-1) (-acc) ds = .ok (-value) := by
  induction ds generalizing acc with
  | nil =>
    rw [digits] at h
    cases h
    rw [digits]
  | cons c ds ih =>
    have hnext : 10 * -acc + -1 * ((c.toNat - '0'.toNat : Nat) : Int) =
        -(10 * acc + 1 * ((c.toNat - '0'.toNat : Nat) : Int)) := by
      omega
    simp only [digits] at h
    simp only [digits, hnext]
    split at h
    · next hc =>
      split at h
      · cases h
      · next hle =>
        split at h
        · cases h
        · next hge =>
          rw [if_pos hc, if_neg (by omega), if_neg (by omega)]
          exact ih h
    · cases h

/-- Behind a minus sign digits are read as the word of their value, negated. -/
theorem word_minus {ds : List Char} (hne : ds ≠ []) (hds : ∀ c ∈ ds, c.isDigit = true)
    (hvalue : Nat.ofDigitChars 10 ds 0 ≤ Word.sizeLimit) :
    word ('-' :: ds) = .ok (.ofInt (-(Nat.ofDigitChars 10 ds 0 : Nat))) := by
  have hmin : (Nat.ofDigitChars 10 ds 0 : Int) ≤ -Int32.minValue.toInt := by
    rw [show -Int32.minValue.toInt = 2147483648 by decide]
    rw [Word.sizeLimit] at hvalue
    omega
  have hread : digits (-Int32.maxValue.toInt) (-Int32.minValue.toInt) 1 (0 : Nat) ds = _ :=
    digits_eq_ok hds (by decide) hmin
  have hdown := digits_neg hread
  rw [Int.natCast_zero, Int.neg_zero] at hdown
  obtain ⟨d, ds, rfl⟩ := List.exists_cons_of_ne_nil hne
  simp only [word, hdown]
  rfl

end Numeral

namespace Word

theorem toList_text (w : Word) : (text w).toList =
    if 0 ≤ w.toInt then Nat.toDigits 10 w.toInt.toNat
    else '-' :: Nat.toDigits 10 (-w.toInt).toNat := by
  rw [text, Int.toString_eq_repr, Int.repr_eq_if]
  split
  · rw [Nat.toList_repr]
  · rw [String.toList_append, Nat.toList_repr]
    rfl

theorem isDigit_of_mem_text {w : Word} {c : Char} (hc : c ∈ (text w).toList) (hminus : c ≠ '-') :
    c.isDigit = true := by
  rw [toList_text] at hc
  split at hc
  · exact Nat.isDigit_of_mem_toDigits (by decide) (by decide) hc
  · rcases List.mem_cons.1 hc with rfl | hc
    · exact absurd rfl hminus
    · exact Nat.isDigit_of_mem_toDigits (by decide) (by decide) hc

theorem text_ne_nil (w : Word) : (text w).toList ≠ [] := by
  rw [toList_text]
  split
  · exact Nat.toDigits_ne_nil
  · exact List.cons_ne_nil _ _

/-- A word is what is read where it is written. -/
theorem word_text (w : Word) : Numeral.word (text w).toList = .ok w := by
  have hdigits (n : Nat) : ∀ c ∈ Nat.toDigits 10 n, c.isDigit = true :=
    fun _ => Nat.isDigit_of_mem_toDigits (by decide) (by decide)
  have hmin : (-2147483648 : Int) ≤ w.toInt := w.minValue_le_toInt
  have hmax : w.toInt ≤ 2147483647 := w.toInt_le
  rw [toList_text]
  split
  · next hpos =>
    rw [Numeral.word_eq_ok Nat.toDigits_ne_nil (hdigits _), Nat.ofDigitChars_ten_toDigits, ofSize]
    · rw [← Int32.ofInt_eq_ofNat, Int.toNat_of_nonneg hpos, Int32.ofInt_toInt]
    · rw [Nat.ofDigitChars_ten_toDigits, sizeLimit]
      omega
  · next hneg =>
    rw [Numeral.word_minus Nat.toDigits_ne_nil (hdigits _), Nat.ofDigitChars_ten_toDigits]
    · rw [Int.toNat_of_nonneg (by omega), Int.neg_neg, Int32.ofInt_toInt]
    · rw [Nat.ofDigitChars_ten_toDigits, sizeLimit]
      omega

theorem text_inj {w w' : Word} (h : text w = text w') : w = w' := by
  have hread := word_text w
  rw [h, word_text] at hread
  exact (Except.ok.inj hread).symm

end Word

/-- Behind the last piece nothing is left. -/
theorem splitOn_pieces {mark : Char} {pieces : List (List Char)} (h : ∀ p ∈ pieces, mark ∉ p) :
    (pieces.flatMap (· ++ [mark])).splitOn mark = pieces ++ [[]] := by
  induction pieces with
  | nil => exact List.splitOn_nil mark
  | cons p pieces ih =>
    obtain ⟨hp, hpieces⟩ := List.forall_mem_cons.1 h
    rw [List.flatMap_cons, List.append_assoc, List.singleton_append,
      List.splitOn_append_cons_self_of_not_mem hp, ih hpieces, List.cons_append]

end Solo
