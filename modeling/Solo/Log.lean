import Solo.Bytecode.Listing
import Solo.Compile.Program
import Solo.Machine.Run

/-! What compiling and running report while they work. A trace record goes with each instruction
that is written or executed; a debug record sums up. -/

namespace Solo.Log

inductive Level where
  | trace
  | debug
  deriving DecidableEq, Repr

inductive Origin where
  | session
  | compiler
  | machine
  deriving DecidableEq, Repr

structure Record where
  level : Level
  origin : Origin
  text : String
  deriving DecidableEq, Repr

end Solo.Log

namespace Solo

open Log (Record)

def Bytecode.summary (b : Bytecode) : String :=
  "compiled " ++ toString b.wordCount ++ " words, frame size " ++ toString b.frameSize ++
    ", parameter slot " ++ toString b.paramSlot

def Compilation.log (c : Compilation) : List Record :=
  c.trace.map (fun (addr, i) => ⟨.trace, .compiler, i.line addr⟩) ++
    match c.result with
    | .ok b => [⟨.debug, .compiler, b.summary⟩]
    | .error _ => []

namespace Machine

def summary (m : Machine) : String :=
  "running " ++ toString m.code.size ++ " words, frame size " ++ toString m.frameSize ++
    ", stack capacity " ++ toString m.capacity

/-- The instruction that is about to be executed, and the registers before it. -/
def record? (m : Machine) : Option Record :=
  match m.fetch with
  | .ok i => some ⟨.trace, .machine,
      Column.alignRight 4 (toString m.ip) ++ "  " ++ Column.alignLeft 12 i.text ++
        " sp=" ++ toString m.sp ++ " fp=" ++ toString m.fp⟩
  | .error _ => none

/-- `records` and those of the steps that `runFor` takes. -/
def stepLog : Nat → Array Record → Machine → Array Record
  | 0, records, _ => records
  | bound + 1, records, m =>
    if m.halted then records
    else
      let records := records ++ m.record?.toArray
      match step m with
      | .ok _ m => stepLog bound records m
      | .error _ _ => records

def runLog (bound : Nat) (arg : Word) (m : Machine) : List Record :=
  match reset arg m with
  | .error _ _ => []
  | .ok _ ready =>
    ⟨.debug, .machine, m.summary⟩ :: (stepLog bound #[] ready).toList ++
      match run bound arg m with
      | .ok (some r) _ => [⟨.debug, .machine, "halted with result " ++ Word.text r⟩]
      | _ => []

end Machine

end Solo
