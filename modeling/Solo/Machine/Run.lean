import Solo.Machine.Step

/-! Running a program. A run need not end, so it is given a bound on the number of steps; a run that
reaches the bound has no result yet. -/

namespace Solo.Machine

/-- Makes the machine ready for a run: the argument is all there is on the stack. -/
def reset (arg : Word) : Action Unit := do
  modify fun m => { m with ip := 0, sp := 0, fp := 0, halted := false, stack := .empty }
  push arg

/-- Steps until the machine has halted, but at most `bound` times. Says whether it has halted. -/
def runFor : Nat → Action Bool
  | 0 => fun m => .ok m.halted m
  | bound + 1 => fun m =>
    if m.halted then .ok true m
    else match step m with
      | .ok _ m => runFor bound m
      | .error f m => .error f m

/-- The value that the program gives for `arg`, if it halts within `bound` steps. -/
def run (bound : Nat) (arg : Word) : Action (Option Word) := do
  reset arg
  if ← runFor bound then
    let result ← read 0
    return some result
  else
    return none

end Solo.Machine
