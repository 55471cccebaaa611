import Solo.Instruction.Basic
import Solo.Machine.Fault

/-! Instructions as words, and words as instructions. -/

namespace Solo.Instruction

def encode (i : Instruction) : List Word := i.opcode :: i.operand.toList

@[simp] theorem length_encode (i : Instruction) : i.encode.length = i.width := by
  unfold encode width
  cases i.operand <;> rfl

/-- What an opcode stands for: a whole instruction, or one that wants the next word, as it is or
as a size. -/
inductive Shape where
  | plain (i : Instruction)
  | withWord (f : Word → Instruction)
  | withSize (f : Nat → Instruction)

def shape? (opcode : Word) : Option Shape :=
  match opcode.toInt with
  | 0 => some (.plain .nop)
  | 1 => some (.withWord .push)
  | 2 => some (.withSize .load)
  | 3 => some (.withSize .store)
  | 4 => some (.plain (.arith .add))
  | 5 => some (.plain (.arith .sub))
  | 6 => some (.plain (.arith .mul))
  | 7 => some (.plain (.arith .div))
  | 8 => some (.withSize (.branch .eq))
  | 9 => some (.withSize (.branch .ne))
  | 10 => some (.withSize (.branch .le))
  | 11 => some (.withSize (.branch .ge))
  | 12 => some (.withSize .goto)
  | 13 => some (.withSize .call)
  | 14 => some (.plain .ret)
  | 15 => some (.plain .stop)
  | _ => none

/-- The instruction at `addr`. -/
def decode (code : Array Word) (addr : Nat) : Except Fault Instruction :=
  let defect (d : Defect) : Except Fault Instruction := .error ⟨addr, .illegal d⟩
  match code[addr]? with
  | none => defect .outsideCode
  | some opcode =>
    match shape? opcode, code[addr + 1]? with
    | none, _ => defect (.unknownOpcode opcode)
    | some (.plain i), _ => .ok i
    | some _, none => defect (.missingOperand opcode)
    | some (.withWord f), some w => .ok (f w)
    | some (.withSize f), some w =>
      match Word.toNat? w with
      | some n => .ok (f n)
      | none => defect (.negativeOperand w)

end Solo.Instruction

namespace Solo

theorem length_flatMap_encode (is : List Instruction) :
    (is.flatMap Instruction.encode).length = width is := by
  induction is with
  | nil => rfl
  | cons i is ih => rw [List.flatMap_cons, List.length_append, Instruction.length_encode, ih, width]

end Solo
