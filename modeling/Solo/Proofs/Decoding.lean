import Solo.Proofs.Encoding

/-! Encoding and decoding are inverse to each other. Words that are decoded as an instruction are the
encoding of that instruction, so nothing is decoded that no instruction is encoded as; and whenever
words are not decoded, one of four things is wrong with them. Decoding the words of a program one
instruction after the other gives the program back. -/

namespace Solo

namespace Word

variable {w : Word} {n : Nat}

theorem toNat?_eq_some_iff : toNat? w = some n ↔ n < sizeLimit ∧ ofSize n = w := by
  constructor
  · intro h
    unfold toNat? at h
    split at h
    · cases h
    · next hneg =>
      obtain rfl := Option.some.inj h
      have hlt : w.toInt.toNat < sizeLimit := by
        have := Int32.toInt_lt w
        simp only [sizeLimit]
        omega
      refine ⟨hlt, Int32.toInt_inj.1 ?_⟩
      rw [ofSize, Int32.toInt_ofNat_of_lt hlt]
      omega
  · rintro ⟨hlt, rfl⟩
    exact toNat?_ofSize hlt

theorem toNat?_eq_none_iff : toNat? w = none ↔ w.toInt < 0 := by
  unfold toNat?
  split <;> simp_all

end Word

namespace Instruction

/-- The slot or the address that the instruction carries. -/
def size? (i : Instruction) : Option Nat := i.slot?.or i.target?

theorem encodable_iff {i : Instruction} :
    i.Encodable ↔ ∀ n, i.size? = some n → n < Word.sizeLimit := by
  cases i <;> simp [Encodable, size?, slot?, target?]

/-- Behind the opcode there is a second word. -/
def TakesWord (opcode : Word) : Prop := ∃ i : Instruction, i.opcode = opcode ∧ i.width = 2

/-- Behind the opcode there is a slot or an address. -/
def TakesSize (opcode : Word) : Prop := ∃ i : Instruction, i.opcode = opcode ∧ i.size?.isSome

/-- The instructions of the shape have the opcode, and behind it the word or the size that they are
made from. -/
def Shape.Fits (opcode : Word) : Shape → Prop
  | .plain i => i.opcode = opcode ∧ i.operand = none ∧ i.size? = none
  | .withWord f => ∀ w, (f w).opcode = opcode ∧ (f w).operand = some w ∧ (f w).size? = none
  | .withSize f => ∀ n, (f n).opcode = opcode ∧ (f n).operand = some (.ofSize n) ∧
      (f n).size? = some n

theorem shape?_fits {opcode : Word} {s : Shape} (h : shape? opcode = some s) : s.Fits opcode := by
  rw [← Int32.ofInt_toInt opcode]
  unfold shape? at h
  split at h <;> cases h
  all_goals
    next hop =>
    rw [hop]
    simp [Shape.Fits, Instruction.opcode, operand, size?, slot?, target?]

theorem shape?_eq_none_iff {opcode : Word} :
    shape? opcode = none ↔ opcode.toInt < 0 ∨ 15 < opcode.toInt := by
  unfold shape?
  split
  case h_17 => grind
  all_goals
    simp only [reduceCtorEq, false_iff]
    omega

theorem takesWord_iff {opcode : Word} :
    TakesWord opcode ↔ ∃ s, shape? opcode = some s ∧ ∀ i, s ≠ .plain i := by
  constructor
  · rintro ⟨i, rfl, hwidth⟩
    obtain ⟨hnone, -⟩ | ⟨f, w, -, hshape, -⟩ | ⟨f, n, -, hshape, -⟩ := shape?_opcode i
    · rw [width, hnone] at hwidth
      cases hwidth
    · exact ⟨_, hshape, by simp⟩
    · exact ⟨_, hshape, by simp⟩
  · rintro ⟨s, hshape, hplain⟩
    have hfits := shape?_fits hshape
    cases s with
    | plain i => exact absurd rfl (hplain i)
    | withWord f => exact ⟨f 0, (hfits 0).1, by rw [width, (hfits 0).2.1]; rfl⟩
    | withSize f => exact ⟨f 0, (hfits 0).1, by rw [width, (hfits 0).2.1]; rfl⟩

theorem takesSize_iff {opcode : Word} :
    TakesSize opcode ↔ ∃ f, shape? opcode = some (.withSize f) := by
  constructor
  · rintro ⟨i, rfl, hi⟩
    obtain ⟨-, hshape⟩ | ⟨f, w, -, hshape, rfl⟩ | ⟨f, n, -, hshape, -⟩ := shape?_opcode i
    · rw [(shape?_fits hshape).2.2] at hi
      cases hi
    · rw [(shape?_fits hshape w).2.2] at hi
      cases hi
    · exact ⟨f, hshape⟩
  · rintro ⟨f, hshape⟩
    obtain ⟨hopcode, -, hsize⟩ := shape?_fits hshape 0
    exact ⟨f 0, hopcode, by rw [hsize]; rfl⟩

theorem encode_prefix {code : Array Word} {addr : Nat} {i : Instruction}
    (hopcode : code[addr]? = some i.opcode)
    (hoperand : ∀ w, i.operand = some w → code[addr + 1]? = some w) :
    i.encode <+: code.toList.drop addr := by
  have hnext : ∀ {k w}, code[k]? = some w → code.toList.drop k = w :: code.toList.drop (k + 1) := by
    intro k w hk
    rw [List.drop_eq_getElem?_toList_append, Array.getElem?_toList, hk]
    rfl
  rw [hnext hopcode, encode]
  cases hw : i.operand with
  | none => exact List.prefix_append _ _
  | some w =>
    rw [hnext (hoperand w hw)]
    exact List.prefix_append _ _

/-- Words are decoded as an instruction exactly if they begin with its encoding and nothing was cut when
it was encoded. -/
theorem decode_eq_ok_iff {code : Array Word} {addr : Nat} {i : Instruction} :
    decode code addr = .ok i ↔ i.Encodable ∧ i.encode <+: code.toList.drop addr := by
  constructor
  · intro h
    rw [encodable_iff]
    unfold decode at h
    cases hopcode : code[addr]? with
    | none => simp [hopcode] at h
    | some opcode =>
      simp only [hopcode] at h
      split at h
      · cases h
      · next j hshape =>
        cases h
        obtain ⟨rfl, hnone, hsize⟩ := shape?_fits hshape
        exact ⟨by simp [hsize], encode_prefix hopcode (by simp [hnone])⟩
      · cases h
      · next f w hshape hw =>
        cases h
        obtain ⟨rfl, hsome, hsize⟩ := shape?_fits hshape w
        exact ⟨by simp [hsize], encode_prefix hopcode (by simp [hsome, hw])⟩
      · next f w hshape hw =>
        split at h
        · next n hn =>
          cases h
          obtain ⟨hlt, rfl⟩ := Word.toNat?_eq_some_iff.1 hn
          obtain ⟨rfl, hsome, hsize⟩ := shape?_fits hshape n
          exact ⟨by simp [hsize, hlt], encode_prefix hopcode (by simp [hsome, hw])⟩
        · cases h
  · rintro ⟨hi, rest, hrest⟩
    exact decode_encode hi hrest.symm

/-- What is wrong where nothing is decoded: there is no word, the word is no opcode, the word behind the
opcode is missing, or it is no size although a size should stand there. -/
theorem decode_eq_error_iff {code : Array Word} {addr : Nat} {fault : Fault} :
    decode code addr = .error fault ↔
      (code.size ≤ addr ∧ fault = ⟨addr, .illegal .outsideCode⟩) ∨
      ∃ opcode, code[addr]? = some opcode ∧
        ((opcode.toInt < 0 ∨ 15 < opcode.toInt) ∧ fault = ⟨addr, .illegal (.unknownOpcode opcode)⟩ ∨
        TakesWord opcode ∧ code.size = addr + 1 ∧
          fault = ⟨addr, .illegal (.missingOperand opcode)⟩ ∨
        ∃ w, TakesSize opcode ∧ code[addr + 1]? = some w ∧ w.toInt < 0 ∧
          fault = ⟨addr, .illegal (.negativeOperand w)⟩) := by
  unfold decode
  cases hopcode : code[addr]? with
  | none =>
    have hsize := Array.getElem?_eq_none_iff.1 hopcode
    simp [hsize, eq_comm]
  | some opcode =>
    have hlt : addr < code.size := (Array.getElem?_eq_some_iff.1 hopcode).1
    cases hshape : shape? opcode with
    | none =>
      have hrange := shape?_eq_none_iff.1 hshape
      simp [takesWord_iff, takesSize_iff, hshape, hrange, Nat.not_le.2 hlt, eq_comm]
    | some s =>
      have hrange : ¬ (opcode.toInt < 0 ∨ 15 < opcode.toInt) := by
        rw [← shape?_eq_none_iff, hshape]
        simp
      cases hnext : code[addr + 1]? with
      | none =>
        have hlast : code.size = addr + 1 := by
          have := Array.getElem?_eq_none_iff.1 hnext
          omega
        cases s <;> simp [takesWord_iff, hshape, hrange, eq_true hlast, Nat.not_le.2 hlt, eq_comm]
      | some w =>
        have hmore : code.size ≠ addr + 1 := by
          have := (Array.getElem?_eq_some_iff.1 hnext).1
          omega
        cases s with
        | plain i => simp [takesSize_iff, hshape, hrange, hmore, Nat.not_le.2 hlt]
        | withWord f => simp [takesSize_iff, hshape, hrange, hmore, Nat.not_le.2 hlt]
        | withSize f =>
          cases hn : Word.toNat? w with
          | none =>
            have hneg := Word.toNat?_eq_none_iff.1 hn
            simp [takesSize_iff, hshape, hrange, hmore, hn, hneg, Nat.not_le.2 hlt, eq_comm]
          | some n =>
            have hpos : ¬ w.toInt < 0 := by
              rw [← Word.toNat?_eq_none_iff, hn]
              simp
            simp [takesSize_iff, hshape, hrange, hmore, hn, hpos, Nat.not_le.2 hlt]

/-- Decodes one instruction after the other from `addr` on, as long as there are words. Gives the
instructions and the address at which it stops. -/
def decodeFrom (code : Array Word) (addr : Nat) : Except Fault (List Instruction × Nat) :=
  if addr < code.size then
    match decode code addr with
    | .ok i => (decodeFrom code (addr + i.width)).map (Prod.map (i :: ·) id)
    | .error fault => .error fault
  else .ok ([], addr)
termination_by code.size - addr
decreasing_by
  have := i.width_pos
  omega

theorem decodeFrom_words (pre post : List Instruction) (h : ∀ i ∈ post, i.Encodable) :
    decodeFrom ((pre ++ post).flatMap encode).toArray (Solo.width pre) =
      .ok (post, Solo.width (pre ++ post)) := by
  induction post generalizing pre with
  | nil =>
    have hsize : ¬ Solo.width pre < ((pre ++ []).flatMap encode).toArray.size := by
      rw [List.size_toArray, length_flatMap_encode, List.append_nil]
      exact Nat.lt_irrefl _
    rw [decodeFrom, if_neg hsize, List.append_nil]
  | cons i post ih =>
    have hsize : Solo.width pre < ((pre ++ i :: post).flatMap encode).toArray.size := by
      have := i.width_pos
      rw [List.size_toArray, length_flatMap_encode, width_append, width_cons]
      omega
    have hrest := ih (pre ++ [i]) fun j hj => h j (List.mem_cons_of_mem i hj)
    rw [List.append_assoc, List.singleton_append, width_append] at hrest
    rw [decodeFrom, if_pos hsize, decode_words (h i List.mem_cons_self)]
    exact congrArg (Except.map (Prod.map (i :: ·) id)) hrest

end Instruction

open Instruction

/-- Programs whose slots and addresses fit into words are given back by decoding, and whatever is
decoded is the encoding of what it is decoded as. -/
theorem encode_decode_exact :
    (∀ b : Bytecode, (∀ i ∈ b.instructions, i.Encodable) →
      b.words.length = b.wordCount ∧
      (∀ addr i, (addr, i) ∈ b.addressed → decode b.words.toArray addr = .ok i) ∧
      decodeFrom b.words.toArray 0 = .ok (b.instructions, b.wordCount)) ∧
    ∀ (code : Array Word) (addr : Nat),
      (∀ i, decode code addr = .ok i →
        addr + i.width ≤ code.size ∧ i.encode = (code.extract addr (addr + i.width)).toList) ∧
      ((∃ fault, decode code addr = .error fault) ↔
        code.size ≤ addr ∨ ∃ opcode, code[addr]? = some opcode ∧
          ((opcode.toInt < 0 ∨ 15 < opcode.toInt) ∨
          TakesWord opcode ∧ code.size = addr + 1 ∨
          TakesSize opcode ∧ ∃ w, code[addr + 1]? = some w ∧ w.toInt < 0)) := by
  refine ⟨fun b hb => ⟨b.length_words, fun addr i hi => ?_, decodeFrom_words [] b.instructions hb⟩,
    fun code addr => ⟨fun i hi => ?_, ?_⟩⟩
  · obtain ⟨pre, post, hsplit, rfl⟩ := exists_of_mem_addressedFrom hi
    rw [Bytecode.words, hsplit, Nat.zero_add]
    exact decode_words (hb i (by simp [hsplit]))
  · obtain ⟨-, rest, hrest⟩ := decode_eq_ok_iff.1 hi
    have hlength := congrArg List.length hrest
    simp only [List.length_append, length_encode, List.length_drop, Array.length_toList] at hlength
    have hpos := i.width_pos
    refine ⟨by omega, ?_⟩
    rw [Array.toList_extract, List.extract_eq_take_drop, ← hrest, Nat.add_sub_cancel_left,
      List.take_left' i.length_encode]
  · constructor
    · rintro ⟨fault, h⟩
      obtain ⟨hsize, -⟩ | ⟨opcode, hopcode, ⟨hrange, -⟩ | ⟨htakes, hlast, -⟩ | ⟨w, htakes, hw, hneg, -⟩⟩ :=
        decode_eq_error_iff.1 h
      · exact .inl hsize
      · exact .inr ⟨opcode, hopcode, .inl hrange⟩
      · exact .inr ⟨opcode, hopcode, .inr (.inl ⟨htakes, hlast⟩)⟩
      · exact .inr ⟨opcode, hopcode, .inr (.inr ⟨htakes, w, hw, hneg⟩)⟩
    · rintro (hsize | ⟨opcode, hopcode, hrange | ⟨htakes, hlast⟩ | ⟨htakes, w, hw, hneg⟩⟩)
      · exact ⟨_, decode_eq_error_iff.2 (.inl ⟨hsize, rfl⟩)⟩
      · exact ⟨_, decode_eq_error_iff.2 (.inr ⟨opcode, hopcode, .inl ⟨hrange, rfl⟩⟩)⟩
      · exact ⟨_, decode_eq_error_iff.2 (.inr ⟨opcode, hopcode, .inr (.inl ⟨htakes, hlast, rfl⟩)⟩)⟩
      · exact ⟨_, decode_eq_error_iff.2
          (.inr ⟨opcode, hopcode, .inr (.inr ⟨w, htakes, hw, hneg, rfl⟩)⟩)⟩

theorem encode_decode_exact_small :
    decodeFrom (Bytecode.words ⟨[.push (-1), .goto 3, .stop], 0, 0, .empty⟩).toArray 0 =
        .ok ([.push (-1), .goto 3, .stop], 5) ∧
      decode #[0, 1, -1] 1 = .ok (.push (-1)) ∧
      (Instruction.push (-1)).encode = (#[0, 1, -1].extract 1 3).toList ∧
      ∃ fault, decode #[12, -1] 0 = .error fault := by
  have hsmall : ∀ i ∈ [Instruction.push (-1), .goto 3, .stop], i.Encodable := by
    simp [encodable_iff, size?, slot?, target?, Word.sizeLimit]
  obtain ⟨hprograms, hwords⟩ := encode_decode_exact
  refine ⟨(hprograms ⟨[.push (-1), .goto 3, .stop], 0, 0, .empty⟩ hsmall).2.2, rfl,
    ((hwords #[0, 1, -1] 1).1 (.push (-1)) rfl).2, (hwords #[12, -1] 0).2.2 ?_⟩
  exact .inr ⟨12, rfl, .inr (.inr ⟨⟨.goto 0, rfl, rfl⟩, -1, rfl, by decide⟩)⟩

end Solo
