import Solo.Word

/-! The instructions of the machine. An instruction is one word, its opcode, or two, if it has an
operand. Slots and addresses are kept whole here and are cut to a word only when they are written
out. -/

namespace Solo

inductive Instruction where
  | nop
  | push (value : Word)
  | load (slot : Nat)
  | store (slot : Nat)
  | arith (op : Arith)
  | branch (test : Comparison) (target : Nat)
  | goto (target : Nat)
  | call (target : Nat)
  | ret
  | stop
  deriving DecidableEq, Repr

namespace Instruction

def opcode : Instruction → Word
  | .nop => 0
  | .push _ => 1
  | .load _ => 2
  | .store _ => 3
  | .arith .add => 4
  | .arith .sub => 5
  | .arith .mul => 6
  | .arith .div => 7
  | .branch .eq _ => 8
  | .branch .ne _ => 9
  | .branch .le _ => 10
  | .branch .ge _ => 11
  | .goto _ => 12
  | .call _ => 13
  | .ret => 14
  | .stop => 15

/-- The word after the opcode. -/
def operand : Instruction → Option Word
  | .push value => some value
  | .load slot | .store slot => some (.ofSize slot)
  | .branch _ target | .goto target | .call target => some (.ofSize target)
  | .nop | .arith _ | .ret | .stop => none

/-- How many words the instruction takes. -/
def width (i : Instruction) : Nat := if i.operand.isSome then 2 else 1

/-- Where the instruction may go other than to the next one. -/
def target? : Instruction → Option Nat
  | .branch _ target | .goto target | .call target => some target
  | _ => none

/-- The same instruction going to `target`, if it goes anywhere. -/
def retarget (target : Nat) : Instruction → Instruction
  | .branch test _ => .branch test target
  | .goto _ => .goto target
  | .call _ => .call target
  | i => i

/-- The slot of a local variable that the instruction reads or writes. -/
def slot? : Instruction → Option Nat
  | .load slot | .store slot => some slot
  | _ => none

def mnemonic : Instruction → String
  | .nop => "NOP"
  | .push _ => "PUSH"
  | .load _ => "LOAD"
  | .store _ => "STORE"
  | .arith .add => "ADD"
  | .arith .sub => "SUB"
  | .arith .mul => "MUL"
  | .arith .div => "DIV"
  | .branch .eq _ => "IF_CMPEQ"
  | .branch .ne _ => "IF_CMPNE"
  | .branch .le _ => "IF_CMPLE"
  | .branch .ge _ => "IF_CMPGE"
  | .goto _ => "GOTO"
  | .call _ => "CALL"
  | .ret => "RETURN"
  | .stop => "STOP"

def text (i : Instruction) : String :=
  match i.operand with
  | some w => i.mnemonic ++ " " ++ Word.text w
  | none => i.mnemonic

end Instruction

/-- How many words the instructions take. -/
def width : List Instruction → Nat
  | [] => 0
  | i :: is => i.width + width is

end Solo
