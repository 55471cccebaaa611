import Solo.Bytecode.Basic
import Solo.Text.Column

/-! Code for people to read: a line for each slot and then a line for each instruction, the
variables by their names. -/

namespace Solo

/-- An instruction behind its address. -/
def Instruction.line (addr : Nat) (i : Instruction) : String :=
  Column.alignRight 4 (toString addr) ++ "  " ++ i.text

namespace Bytecode

def slotLine (b : Bytecode) (slot : Nat) (name : String) : String :=
  "slot " ++ toString slot ++ ": " ++ name ++ (if slot = b.paramSlot then "  parameter" else "") ++ "\n"

def instructionLine (b : Bytecode) (addr : Nat) (i : Instruction) : String :=
  let name := match i.slot?.bind b.symbols.name? with
    | some name => "  (" ++ name ++ ")"
    | none => ""
  i.line addr ++ name ++ "\n"

def listing (b : Bytecode) : String :=
  String.join (b.symbols.entries.map fun (slot, name) => b.slotLine slot name) ++
    String.join (b.addressed.map fun (addr, i) => b.instructionLine addr i)

end Bytecode

end Solo
