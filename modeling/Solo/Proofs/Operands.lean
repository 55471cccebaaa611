import Solo.Proofs.Decoding
import Solo.Proofs.WellFormed

/-! Every operand of compiled code fits. Loads and stores use slots of the frame, however large the code
is. A frame has a slot for each name, and each name takes two words of code, so if the addresses of the
code fit into words then so do its slots: encoding cuts nothing, and decoding gives the code back. -/

namespace Solo

open Bytecode (bodyAddr)
open Instruction Grammar

/-- What is encoded of a slot or an address that is small enough is its value. -/
theorem Instruction.Encodable.operand {i : Instruction} (hi : i.Encodable) {n : Nat}
    (hn : i.size? = some n) : ∃ w, i.operand = some w ∧ w.toInt = n := by
  have hvalue : (Word.ofSize n).toInt = n := Int32.toInt_ofNat_of_lt (encodable_iff.1 hi n hn)
  refine ⟨.ofSize n, ?_, hvalue⟩
  cases i <;> cases hn <;> rfl

/-- Checked code uses only slots of its frame. -/
theorem Checked.slot_lt {body is : List Instruction} {frameSize d k : Nat} {i : Instruction}
    (h : Checked body frameSize d is) (hi : i ∈ is) (hk : i.slot? = some k) : k < frameSize := by
  obtain ⟨pre, post, rfl⟩ := List.append_of_mem hi
  exact h.legal.slot k hk

theorem Bytecode.WellFormed.all_encodable {b : Bytecode} {body : List Instruction}
    (h : b.WellFormed body) : ∀ i ∈ b.instructions, i.Encodable := by
  intro i hi
  rw [h.instructions] at hi
  rcases List.mem_cons.1 hi with rfl | hi
  · rw [encodable_iff]
    intro n hn
    cases hn
    decide
  · rcases List.mem_cons.1 hi with rfl | hi
    · exact encodable_iff.2 (by simp [size?, slot?, target?])
    · obtain ⟨pre, post, hbody⟩ := List.append_of_mem hi
      exact h.encodable hbody

/-- Slots are slots of the frame, the frame takes at most half as many words as the code, and if the
code has few enough words no operand is cut. -/
theorem compiled_operands_fit {source : String} {capacity : Nat} {b : Bytecode}
    (h : compile source capacity = .ok b) :
    (∀ i ∈ b.instructions, ∀ k, i.slot? = some k → k < b.frameSize) ∧
    b.paramSlot < b.frameSize ∧ 2 * b.frameSize ≤ b.wordCount ∧
    (capacity ≤ Word.sizeLimit →
      (∀ i ∈ b.instructions, ∀ n, i.size? = some n → ∃ w, i.operand = some w ∧ w.toInt = n) ∧
      decodeFrom b.words.toArray 0 = .ok (b.instructions, b.wordCount)) := by
  obtain ⟨ts, symbols, hlexes, hderives⟩ := derives_of_compile h
  obtain ⟨p, hp⟩ := (sentence_iff_derives hlexes).2 hderives
  refine ⟨fun i hi k hk => ?_, param_lt_of_compile h hlexes hp, frame_le_of_compile h hlexes hp,
    fun hcapacity => ?_⟩
  · have hb : b.instructions =
        [.call bodyAddr, .stop] ++ (p.body.code (slotIn ts) bodyAddr ++ [.nop]) := by
      rw [eq_of_compile h hlexes hp]
      rfl
    rw [hb, List.mem_append] at hi
    rcases hi with hstart | hbody
    · -- neither the call nor the stop has a slot
      simp only [List.mem_cons, List.not_mem_nil, or_false] at hstart
      rcases hstart with rfl | rfl <;> cases hk
    · exact (checked_of_compile h hlexes hp).slot_lt hbody hk
  · have hall := (wellFormed_of_compile h hcapacity hlexes hp).all_encodable
    exact ⟨fun i hi n hn => (hall i hi).operand hn, decodeFrom_words [] b.instructions hall⟩

/-- For an empty body the frame takes exactly half as many words as the code. -/
theorem compiled_operands_fit_empty : ∃ b, compile "f(x) \x7b \x7d" 4 = .ok b ∧
    b.paramSlot < b.frameSize ∧ 2 * b.frameSize = b.wordCount ∧
    decodeFrom b.words.toArray 0 = .ok (b.instructions, b.wordCount) := by
  have hsizes : (compile "f(x) \x7b \x7d" 4).toOption.map (fun b => [2 * b.frameSize, b.wordCount]) =
      some [4, 4] := by
    decide +kernel
  obtain ⟨b, hb, hsizes⟩ := Option.map_eq_some_iff.1 hsizes
  obtain ⟨-, hparam, -, hsmall⟩ := compiled_operands_fit (eq_ok_of_toOption hb)
  simp only [List.cons.injEq, and_true] at hsizes
  exact ⟨b, eq_ok_of_toOption hb, hparam, hsizes.1.trans hsizes.2.symm, (hsmall (by decide)).2⟩

end Solo
