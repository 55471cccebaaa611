import Solo.Machine.Step
import Solo.Proofs.Layout

/-! What is encoded is decoded again. Sizes below the limit keep their value as words, so at the address
of an instruction whose operand is that small the machine fetches that instruction. -/

namespace Solo

theorem Word.ofNat?_eq {n : Nat} (h : n < Word.sizeLimit) : ofNat? n = some (ofSize n) := by
  rw [ofNat?, if_pos h]

theorem Word.toNat?_ofSize {n : Nat} (h : n < Word.sizeLimit) : toNat? (ofSize n) = some n := by
  have hint : (ofSize n).toInt = n := Int32.toInt_ofNat_of_lt h
  rw [toNat?, hint, if_neg (by omega), Int.toNat_natCast]

namespace Instruction

/-- No operand is cut when the instruction is encoded. -/
def Encodable (i : Instruction) : Prop :=
  (∀ n, i.slot? = some n → n < Word.sizeLimit) ∧ ∀ n, i.target? = some n → n < Word.sizeLimit

/-- What an opcode stands for and what is encoded behind it belong together. -/
theorem shape?_opcode (i : Instruction) :
    (i.operand = none ∧ shape? i.opcode = some (.plain i)) ∨
    (∃ f w, i.operand = some w ∧ shape? i.opcode = some (.withWord f) ∧ f w = i) ∨
    ∃ f n, i.operand = some (.ofSize n) ∧ shape? i.opcode = some (.withSize f) ∧ f n = i ∧
      (i.slot? = some n ∨ i.target? = some n) := by
  cases i with
  | nop | ret | stop => exact .inl ⟨rfl, rfl⟩
  | arith op => cases op <;> exact .inl ⟨rfl, rfl⟩
  | push w => exact .inr (.inl ⟨_, w, rfl, rfl, rfl⟩)
  | load n | store n => exact .inr (.inr ⟨_, n, rfl, rfl, rfl, .inl rfl⟩)
  | goto n | call n => exact .inr (.inr ⟨_, n, rfl, rfl, rfl, .inr rfl⟩)
  | branch test n => cases test <;> exact .inr (.inr ⟨_, n, rfl, rfl, rfl, .inr rfl⟩)

/-- Decoding looks at one word, and at the next one if the opcode wants it. -/
theorem decode_encode {i : Instruction} (hi : i.Encodable) {code : Array Word} {addr : Nat}
    {rest : List Word} (h : code.toList.drop addr = i.encode ++ rest) : decode code addr = .ok i := by
  have hword : ∀ k, code[addr + k]? = (i.encode ++ rest)[k]? := by
    intro k
    rw [← h, List.getElem?_drop, Array.getElem?_toList]
  have h0 : code[addr]? = some i.opcode := hword 0
  have h1 : ∀ w, i.operand = some w → code[addr + 1]? = some w := by
    intro w hw
    rw [hword 1, encode, hw]
    rfl
  unfold decode
  rw [h0]
  obtain ⟨-, hshape⟩ | ⟨f, w, hw, hshape, hf⟩ | ⟨f, n, hn, hshape, hf, hsmall⟩ := shape?_opcode i
  · simp only [hshape]
  · simp only [hshape, h1 w hw, hf]
  · have hlt : n < Word.sizeLimit := hsmall.elim (hi.1 n) (hi.2 n)
    simp only [hshape, h1 _ hn, Word.toNat?_ofSize hlt, hf]

/-- In the words of a program an instruction is decoded at its address. -/
theorem decode_words {pre post : List Instruction} {i : Instruction} (hi : i.Encodable) :
    decode ((pre ++ i :: post).flatMap encode).toArray (Solo.width pre) = .ok i := by
  have hdrop : ((pre ++ i :: post).flatMap encode).drop (Solo.width pre) =
      i.encode ++ post.flatMap encode := by
    rw [List.flatMap_append, List.drop_left' (length_flatMap_encode pre), List.flatMap_cons]
  exact decode_encode hi hdrop

end Instruction

namespace Machine

variable {b : Bytecode} {m : Machine}

/-- The machine fetches what stands at `ip`. -/
theorem fetch_eq_ok (hcode : m.code = b.words.toArray) {pre post : List Instruction}
    {i : Instruction} (hb : b.instructions = pre ++ i :: post) (hi : i.Encodable)
    (hip : m.ip = width pre) : m.fetch = .ok i := by
  have hsize : m.code.size = width pre + (i.width + width post) := by
    rw [hcode, List.size_toArray, b.length_words, Bytecode.wordCount, hb]
    exact width_append pre (i :: post)
  have hpos := i.width_pos
  rw [fetch, if_neg (by omega), hip, hcode, Bytecode.words, hb]
  exact Instruction.decode_words hi

/-- Behind the last instruction there is nothing to fetch. -/
theorem fetch_end (hcode : m.code = b.words.toArray) (hip : m.ip = b.wordCount) :
    m.fetch = .error ⟨m.ip, .illegal .noReturn⟩ := by
  have hsize : m.code.size = b.wordCount := by
    rw [hcode, List.size_toArray, b.length_words]
  rw [fetch, if_pos (hip.trans hsize.symm)]

end Machine

end Solo
