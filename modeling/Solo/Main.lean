import Solo.CommandLine.Transcript

/-! The command itself. A program is run in rounds until it halts, however long that takes. -/

namespace Solo.Command

/-- The number that the system has for an error. Some calls give it negated. -/
def systemNumber (code : UInt32) : Nat :=
  if code.toNat < Word.sizeLimit then code.toNat else UInt32.size - code.toNat

def readError (e : IO.Error) : ReadError :=
  match e with
  | .noFileOrDirectory _ _ _ => .notFound
  | .inappropriateType _ code details | .permissionDenied _ code details
  | .resourceExhausted _ code details | .invalidArgument _ code details =>
    match systemNumber code with
    | 20 => .notDirectory
    | 21 => .isDirectory
    | n => .other (details ++ " (os error " ++ toString n ++ ")")
  | _ => .other (toString e)

def loadSource (path : String) : IO (Except SourceError String) := do
  let text ← try
      let bytes ← IO.FS.readBinFile path
      pure (sourceText bytes)
    catch e => pure (.error (readError e))
  return text.mapError fun cause => ⟨path, cause⟩

/-- Runs on until the machine halts or fails. -/
partial def finish (m : Machine) : IO (Except Fault Word) := do
  match Machine.runFor 1000000 m with
  | .error f _ => return .error f
  | .ok false m => finish m
  | .ok true m =>
    match Machine.read 0 m with
    | .ok result _ => return .ok result
    | .error f _ => return .error f

/-- Writes the code before it is run. -/
def run (o : Options) (b : Bytecode) : IO (Except CommandError Unit) := do
  IO.print (o.dump b)
  match Machine.reset o.arg (.load b o.limits) with
  | .error f _ => return .error (.execution f)
  | .ok _ m =>
    match ← finish m with
    | .error f => return .error (.execution f)
    | .ok result =>
      IO.print (Options.resultLine result)
      return .ok ()

def invoke (args : List String) : IO (Except CommandError Unit) := do
  match Options.ofArgs args with
  | .error e => return .error e
  | .ok o =>
    match ← loadSource o.source with
    | .error e => return .error (.unreadable e)
    | .ok program =>
      match o.compile program with
      | .error e => return .error e
      | .ok b => run o b

end Solo.Command

def main (args : List String) : IO UInt32 := do
  match ← Solo.Command.invoke args with
  | .ok _ => return 0
  | .error e =>
    IO.eprint e.notice
    return 1
