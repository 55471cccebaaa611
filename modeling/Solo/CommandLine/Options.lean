import Solo.CommandLine.Error

/-! What the arguments of the command ask for. Flags may stand anywhere among the two positional
arguments, and of a size that is given more than once the last counts. -/

namespace Solo

structure Options where
  source : String
  arg : Word
  disasm : Bool
  limits : Limits
  deriving DecidableEq, Repr

namespace Options

/-- What the arguments looked at so far have said. -/
structure Gathered where
  positionals : List String := []
  disasm : Bool := false
  limits : Limits := {}

def Gathered.setSize (g : Gathered) (size : Nat) : SizeFlag → Gathered
  | .code => { g with limits := { g.limits with code := size } }
  | .stack => { g with limits := { g.limits with stack := size } }

def sizeFlag? : String → Option SizeFlag
  | "--code-size" => some .code
  | "--stack-size" => some .stack
  | _ => none

def size (flag : SizeFlag) (value : String) : Except CommandError Nat :=
  (Numeral.size value.toList).mapError (.badSize flag value)

def gather (g : Gathered) : List String → Except CommandError Gathered
  | [] => .ok g
  | arg :: args =>
    if arg = "--disasm" then gather { g with disasm := true } args
    else if arg = "-h" || arg = "--help" then .error .usage
    else match sizeFlag? arg, args with
      | none, args => gather { g with positionals := g.positionals ++ [arg] } args
      | some flag, [] => .error (.missingSize flag)
      | some flag, value :: args => do
        let n ← size flag value
        gather (g.setSize n flag) args

def ofArgs (args : List String) : Except CommandError Options := do
  let g ← gather {} args
  match g.positionals with
  | [source, arg] =>
    let value ← (Numeral.word arg.toList).mapError (.badArgument arg)
    return { source, arg := value, disasm := g.disasm, limits := g.limits }
  | _ => .error .usage

end Options

end Solo
