import Solo.Compile.Rules
import Solo.Token.Stream

/-! A program while it is compiled: the token that is looked at, those behind it, and the code
written so far. Code is written in one pass over the tokens. A jump forward is written before its
target is known and is set to it later; what was written first stays in the trace. -/

namespace Solo

structure Draft where
  ahead : Lexeme
  rest : List Lexeme
  ending : TokenStream.Ending
  /-- How many words the code may have. -/
  capacity : Nat
  code : Array Instruction := #[]
  /-- How many words the code has, which is the address of the next instruction. -/
  size : Nat := 0
  /-- Every instruction as it was written first, with its address. -/
  trace : Array (Nat × Instruction) := #[]

abbrev Drafting := EStateM CompileError Draft

namespace Draft

/-- Nothing written, and the first token not yet looked at. -/
def start (stream : TokenStream) (capacity : Nat) : Draft :=
  { ahead := ⟨{}, .eof⟩, rest := stream.lexemes, ending := stream.ending, capacity }

def token : Drafting Token := fun d => .ok d.ahead.token d

def here : Drafting Nat := fun d => .ok d.size d

def advance : Drafting Unit := fun d =>
  match d.rest, d.ending with
  | l :: rest, _ => .ok () { d with ahead := l, rest }
  | [], .eof pos => .ok () { d with ahead := ⟨pos, .eof⟩ }
  | [], .stuck pos error => .error (.lexical pos error) d

def reject {α : Type} (expected : Expected) : Drafting α := fun d =>
  .error (.misplaced d.ahead.pos expected d.ahead.token) d

def emit (i : Instruction) : Drafting Unit := fun d =>
  if d.size + i.width ≤ d.capacity then
    .ok () { d with
      code := d.code.push i, size := d.size + i.width, trace := d.trace.push (d.size, i) }
  else .error (.codeOverflow d.capacity) d

def emitJump (i : Instruction) : Drafting Nat := do
  let index := (← get).code.size
  emit i
  return index

def patch (index : Nat) : Drafting Unit := modify fun d =>
  { d with code := d.code.modify index (Instruction.retarget d.size) }

/-- A rule that has used up its depth refuses its token. -/
instance : Toolkit Drafting where
  token := token
  here := here
  advance := advance
  reject := reject
  emit := emit
  emitJump := emitJump
  patch := patch
  spent := reject

end Draft

end Solo
