import Solo.Machine.Basic

/-! One step of the machine: the instruction at `ip` is fetched and executed. Only when it has done
its work does `ip` move, so a fault finds `ip` at the instruction that caused it. -/

namespace Solo.Machine

/-- Takes two words off and puts the result of `op` in their place. -/
def arith (op : Arith) : Action Unit := do
  let b ← pop
  let a ← pop
  match op.apply a b with
  | some r => push r
  | none => fail .divisionByZero

/-- Takes two words off and goes to `target` if they pass the test, else to `next`. -/
def branch (test : Comparison) (target next : Nat) : Action Unit := do
  let b ← pop
  let a ← pop
  jump (if test.holds a b then target else next)

/-- Lays a frame above the argument, which is on top of the stack, and goes to `target` in it.
Every variable is zero but the parameter, which is a copy of the argument. -/
def call (target next : Nat) : Action Unit := do
  let sp := (← get).sp
  let frameSize := (← get).frameSize
  ensure (sp ≠ 0) .stackUnderflow
  ensureRoom (sp + 2 + frameSize)
  let next ← saved next
  let caller ← saved (← get).fp
  write sp next
  write (sp + 1) caller
  modify fun m => { m with stack := m.stack.clear (sp + 2) frameSize }
  let arg ← read (sp - 1)
  write (sp + 2 + (← get).paramSlot) arg
  modify fun m => { m with ip := target, sp := sp + 2 + frameSize, fp := sp + 2 }

/-- Drops the frame, leaves the top of the stack where the argument was, and goes back to the
caller. -/
def ret : Action Unit := do
  let fp := (← get).fp
  ensure (3 ≤ fp) .stackUnderflow
  ensure ((← get).sp ≠ 0) .stackUnderflow
  let result ← read ((← get).sp - 1)
  write (fp - 3) result
  modify fun m => { m with sp := fp - 2 }
  let caller ← restored (← read (fp - 1))
  modify fun m => { m with fp := caller }
  let next ← restored (← read (fp - 2))
  jump next

/-- Does what `i` says, when the instruction after it stands at `next`. -/
def execute (i : Instruction) (next : Nat) : Action Unit :=
  match i with
  | .nop => jump next
  | .push w => do
    push w
    jump next
  | .load slot => do
    let w ← read ((← get).fp + slot)
    push w
    jump next
  | .store slot => do
    let w ← pop
    write ((← get).fp + slot) w
    jump next
  | .arith op => do
    arith op
    jump next
  | .branch test target => branch test target next
  | .goto target => jump target
  | .call target => call target next
  | .ret => ret
  | .stop => modify fun m => { m with halted := true }

/-- The instruction at `ip`. The end of the code is where a function runs to that does not
return. -/
def fetch (m : Machine) : Except Fault Instruction :=
  if m.ip = m.code.size then .error ⟨m.ip, .illegal .noReturn⟩ else Instruction.decode m.code m.ip

/-- Executes one instruction, whether the machine has halted or not. -/
def step : Action Unit := fun m =>
  match m.fetch with
  | .ok i => execute i (m.ip + i.width) m
  | .error f => .error f m

end Solo.Machine
