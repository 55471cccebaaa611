import Solo.CommandLine.Options
import Solo.Source.Tree

/-! What the command does: it compiles a source file, writes the code, runs it and writes the
result. -/

namespace Solo

namespace Transcript

inductive Ending where
  | finished
  | failed (e : CommandError)
  /-- The program needs more steps than it was given. -/
  | unfinished
  deriving DecidableEq, Repr

end Transcript

/-- What the command has written to its output, and how it ended. -/
structure Transcript where
  output : String
  ending : Transcript.Ending
  deriving DecidableEq, Repr

namespace Transcript

/-- What goes to the error output. -/
def notice (t : Transcript) : String :=
  match t.ending with
  | .failed e => e.notice
  | _ => ""

def status (t : Transcript) : Nat :=
  match t.ending with
  | .failed _ => 1
  | _ => 0

end Transcript

namespace Options

def compile (o : Options) (program : String) : Except CommandError Bytecode :=
  (Solo.compile program o.limits.code).mapError (.compilation o.source)

/-- The code as it is written before it is run. -/
def dump (o : Options) (b : Bytecode) : String :=
  "VMCode: " ++ b.text ++ "\n" ++ if o.disasm then b.listing else ""

def resultLine (result : Word) : String := "Result: " ++ Word.text result ++ "\n"

/-- Compiles and runs `program` for at most `bound` steps. Nothing is written if it does not
compile. -/
def execute (o : Options) (bound : Nat) (program : String) : Transcript :=
  match o.compile program with
  | .error e => ⟨"", .failed e⟩
  | .ok b =>
    match Machine.run bound o.arg (.load b o.limits) with
    | .ok (some result) _ => ⟨o.dump b ++ resultLine result, .finished⟩
    | .ok none _ => ⟨o.dump b, .unfinished⟩
    | .error f _ => ⟨o.dump b, .failed (.execution f)⟩

end Options

/-- The whole command, with the files that it can read. -/
def Transcript.ofArgs (files : FileTree) (bound : Nat) (args : List String) : Transcript :=
  match Options.ofArgs args with
  | .error e => ⟨"", .failed e⟩
  | .ok o =>
    match files.loadSource o.source with
    | .error e => ⟨"", .failed (.unreadable e)⟩
    | .ok program => o.execute bound program

end Solo
