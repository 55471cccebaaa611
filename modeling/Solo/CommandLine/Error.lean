import Solo.Session

/-! Why the command fails. An error may have another one below it, and a report gives them all from
the top down. -/

namespace Solo

inductive SizeFlag where
  | code
  | stack
  deriving DecidableEq, Repr

def SizeFlag.text : SizeFlag → String
  | .code => "--code-size"
  | .stack => "--stack-size"

inductive CommandError where
  | usage
  | missingSize (flag : SizeFlag)
  | badSize (flag : SizeFlag) (value : String) (cause : NumeralError)
  | badArgument (value : String) (cause : NumeralError)
  | unreadable (e : SourceError)
  | compilation (source : String) (cause : CompileError)
  | execution (cause : Fault)
  deriving DecidableEq, Repr

namespace CommandError

def message : CommandError → String
  | .usage => "usage: minivm <source> <integer> [--disasm] [--code-size N] [--stack-size N]"
  | .missingSize flag => flag.text ++ " needs a value"
  | .badSize flag value _ => flag.text ++ " expects a positive number, got '" ++ value ++ "'"
  | .badArgument value _ => "argument '" ++ value ++ "' is not an integer"
  | .unreadable e => e.message
  | .compilation source _ => "compilation of " ++ source ++ " failed"
  | .execution _ => "execution failed"

def cause? : CommandError → Option String
  | .usage | .missingSize _ => none
  | .badSize _ _ cause | .badArgument _ cause => some cause.message
  | .unreadable e => some e.cause.message
  | .compilation _ cause => some cause.message
  | .execution cause => some cause.message

def report (e : CommandError) : String :=
  match e.cause? with
  | some cause => e.message ++ ": " ++ cause
  | none => e.message

/-- What the command writes to its error output. -/
def notice (e : CommandError) : String := "error: " ++ e.report ++ "\n"

end CommandError

end Solo
