import Solo.Token.Scanner

/-! All tokens of a source, up to its end or to the first place where no token begins. -/

namespace Solo

structure Lexeme where
  pos : Position
  token : Token
  deriving DecidableEq, Repr

namespace TokenStream

/-- What stands behind the last token. -/
inductive Ending where
  | eof (pos : Position)
  | stuck (pos : Position) (error : ScanError)
  deriving DecidableEq, Repr

end TokenStream

structure TokenStream where
  lexemes : List Lexeme
  ending : TokenStream.Ending
  symbols : SymbolTable

namespace TokenStream

/-- Reads on, at most `n` times, after the tokens `read` (last one first). -/
def collect : Nat → List Lexeme → Scanner → TokenStream
  | 0, read, s => ⟨read.reverse, .eof s.pos, s.symbols⟩
  | n + 1, read, s =>
    match s.next with
    | (⟨pos, .error e⟩, s) => ⟨read.reverse, .stuck pos e, s.symbols⟩
    | (⟨pos, .ok .eof⟩, s) => ⟨read.reverse, .eof pos, s.symbols⟩
    | (⟨pos, .ok token⟩, s) => collect n (⟨pos, token⟩ :: read) s

/-- Every token takes at least one character, so one reading per character and one for the end
are enough. -/
def ofSource (source : String) : TokenStream := collect (source.length + 1) [] (.ofSource source)

end TokenStream

end Solo
