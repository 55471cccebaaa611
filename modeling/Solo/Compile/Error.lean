import Solo.Token.Scanner

/-! Why a source does not compile. -/

namespace Solo

/-- What the grammar has at a place: a certain token, or one of several that begin something. -/
inductive Expected where
  | token (t : Token)
  | functionName
  | parameterName
  | statement
  | relationalOperator
  | expression
  deriving DecidableEq, Repr

def Expected.text : Expected → String
  | .token t => t.text
  | .functionName => "function name"
  | .parameterName => "parameter name"
  | .statement => "statement"
  | .relationalOperator => "relational operator"
  | .expression => "expression"

inductive CompileError where
  /-- No token begins at `pos`. -/
  | lexical (pos : Position) (error : ScanError)
  /-- The token at `pos` is not one that may stand there. -/
  | misplaced (pos : Position) (expected : Expected) (found : Token)
  /-- The code does not fit into `capacity` words. -/
  | codeOverflow (capacity : Nat)
  deriving DecidableEq, Repr

def CompileError.message : CompileError → String
  | .lexical pos error => "lexical error at " ++ pos.text ++ ": " ++ error.message
  | .misplaced pos expected found =>
    "syntax error at " ++ pos.text ++ ": expected " ++ expected.text ++ ", found " ++ found.text
  | .codeOverflow capacity =>
    "code overflow: program exceeds " ++ toString capacity ++ " words"

end Solo
