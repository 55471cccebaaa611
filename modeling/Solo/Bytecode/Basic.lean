import Solo.Instruction.Encoding
import Solo.SymbolTable

/-! Compiled programs: the instructions, where the function starts, which slot holds its
parameter, and the names of the slots. -/

namespace Solo

structure Bytecode where
  instructions : List Instruction
  startAddr : Nat
  paramSlot : Nat
  symbols : SymbolTable

namespace Bytecode

/-- Where the code of the function starts when a source is compiled. Before it stand a call of the
function, at which a run starts, and a stop. -/
def bodyAddr : Nat := 3

/-- Each frame has a slot for every name. -/
def frameSize (b : Bytecode) : Nat := b.symbols.size

def wordCount (b : Bytecode) : Nat := width b.instructions

def words (b : Bytecode) : List Word := b.instructions.flatMap Instruction.encode

theorem length_words (b : Bytecode) : b.words.length = b.wordCount :=
  length_flatMap_encode b.instructions

/-- Instructions with their addresses, when the first stands at `addr`. -/
def addressedFrom (addr : Nat) : List Instruction → List (Nat × Instruction)
  | [] => []
  | i :: is => (addr, i) :: addressedFrom (addr + i.width) is

def addressed (b : Bytecode) : List (Nat × Instruction) := addressedFrom 0 b.instructions

/-- The words in decimal, a blank after each. -/
def text (b : Bytecode) : String := String.join (b.words.map fun w => Word.text w ++ " ")

end Bytecode

end Solo
