import Solo.Compile.Draft

/-! From source to code. -/

namespace Solo

/-- What compiling has written, in the order in which it was written, and how it ended. -/
structure Compilation where
  trace : List (Nat × Instruction)
  result : Except CompileError Bytecode

/-- Compiles `source` to at most `capacity` words of code. Between two tokens that are moved past,
rules are nested at most four deep. -/
def Compilation.ofSource (source : String) (capacity : Nat) : Compilation :=
  let stream := TokenStream.ofSource source
  match Rules.program (m := Drafting) (4 * stream.lexemes.length + 8) (.start stream capacity) with
  | .ok (entry, paramSlot) d =>
    ⟨d.trace.toList, .ok ⟨d.code.toList, entry, paramSlot, stream.symbols⟩⟩
  | .error e d => ⟨d.trace.toList, .error e⟩

def compile (source : String) (capacity : Nat) : Except CompileError Bytecode :=
  (Compilation.ofSource source capacity).result

end Solo
