import Solo.Log
import Solo.Source.Basic

/-! Compiling a source and running it at once. -/

namespace Solo

/-- All that can go wrong between a file and a result. -/
inductive Failure where
  | source (e : SourceError)
  | compile (e : CompileError)
  | machine (f : Fault)
  deriving DecidableEq, Repr

inductive Stage where
  | source
  | lexer
  | parser
  | machine
  deriving DecidableEq, Repr

def Stage.text : Stage → String
  | .source => "source"
  | .lexer => "lexer"
  | .parser => "parser"
  | .machine => "vm"

namespace Failure

def message : Failure → String
  | .source e => e.message
  | .compile e => e.message
  | .machine f => f.message

def cause? : Failure → Option String
  | .source e => some e.cause.message
  | _ => none

def stage : Failure → Stage
  | .source _ => .source
  | .compile (.lexical _ _) => .lexer
  | .compile _ => .parser
  | .machine _ => .machine

end Failure

/-- What the program `source` gives for `arg`, if it halts within `bound` steps. -/
def run (limits : Limits) (bound : Nat) (source : String) (arg : Word) :
    Except Failure (Option Word) :=
  match compile source limits.code with
  | .error e => .error (.compile e)
  | .ok b =>
    match Machine.run bound arg (.load b limits) with
    | .ok result _ => .ok result
    | .error f _ => .error (.machine f)

/-- The records of such a run. -/
def runLog (limits : Limits) (bound : Nat) (source : String) (arg : Word) : List Log.Record :=
  let compilation := Compilation.ofSource source limits.code
  ⟨.trace, .session, "compiling " ++ source⟩ :: compilation.log ++
    match compilation.result with
    | .error _ => []
    | .ok b => ⟨.trace, .session, "executing " ++ b.text⟩ :: Machine.runLog bound arg (.load b limits)

end Solo
