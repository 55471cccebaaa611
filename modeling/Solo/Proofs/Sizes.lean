import Solo.Machine.Run

/-! The machine with sizes of 64 bits. Where an instruction adds sizes, the sum has to be a size again,
and where it subtracts, no size may be taken from a smaller one; otherwise the machine is trapped. In all
else these are the actions of the machine that computes with natural numbers. A difference that is only
formed after it has been tested, such as the place of the argument in a call, cannot trap: its test is
a fault of the machine itself. -/

namespace Solo

/-- Sizes are the numbers below this, two to the power of 64. -/
def Size.limit : Nat := 18446744073709551616

inductive Trap where
  | fault (f : Fault)
  /-- A sum is too large for a size, or a difference too small. -/
  | noSize

abbrev Sized := EStateM Trap Machine

/-- Fetching as an action that leaves the machine as it is. -/
def Machine.fetching : Action Instruction := fun m =>
  match m.fetch with
  | .ok i => .ok i m
  | .error f => .error f m

namespace Sized

variable {α : Type}

/-- An action that neither adds nor subtracts sizes. -/
def of (x : Action α) : Sized α := fun m =>
  match x m with
  | .ok a m => .ok a m
  | .error f m => .error (.fault f) m

def plus (a b : Nat) : Sized Nat := if a + b < Size.limit then pure (a + b) else throw .noSize

def minus (a b : Nat) : Sized Nat := if b ≤ a then pure (a - b) else throw .noSize

/-- A sum that is added up only in the case `c`. -/
def plusIf (c : Prop) [Decidable c] (a b : Nat) : Sized Unit :=
  if c then discard (plus a b) else pure ()

/-- Where the stack has to grow, its new size is added up. -/
def write (i : Nat) (w : Word) : Sized Unit := do
  let m ← get
  plusIf (i < m.capacity ∧ m.stack.size ≤ i) i 1
  of (Machine.write i w)

def push (w : Word) : Sized Unit := do
  write (← get).sp w
  let sp ← plus (← get).sp 1
  modify fun m => { m with sp }

def pop : Sized Word := do
  of (Machine.ensure ((← get).sp ≠ 0) .stackUnderflow)
  let sp ← minus (← get).sp 1
  modify fun m => { m with sp }
  of (Machine.read sp)

/-- Writes zeros at the `n` indices from `i`, one after the other. -/
def clear : Nat → Nat → Sized Unit
  | _, 0 => pure ()
  | i, n + 1 => do
    let next ← plus i 1
    write i 0
    clear next n

def arith (op : Arith) : Sized Unit := do
  let b ← pop
  let a ← pop
  match op.apply a b with
  | some r => push r
  | none => of (Machine.fail .divisionByZero)

def branch (test : Comparison) (target next : Nat) : Sized Unit := do
  let b ← pop
  let a ← pop
  of (Machine.jump (if test.holds a b then target else next))

def call (target next : Nat) : Sized Unit := do
  let sp := (← get).sp
  let frameSize := (← get).frameSize
  of (Machine.ensure (sp ≠ 0) .stackUnderflow)
  let fp ← plus sp 2
  let top ← plus fp frameSize
  of (Machine.ensureRoom top)
  let next ← of (Machine.saved next)
  let caller ← of (Machine.saved (← get).fp)
  write sp next
  write (← plus sp 1) caller
  clear fp frameSize
  let arg ← of (Machine.read (sp - 1))
  write (← plus fp (← get).paramSlot) arg
  modify fun m => { m with ip := target, sp := top, fp }

def ret : Sized Unit := do
  let fp := (← get).fp
  of (Machine.ensure (3 ≤ fp) .stackUnderflow)
  of (Machine.ensure ((← get).sp ≠ 0) .stackUnderflow)
  let result ← of (Machine.read ((← get).sp - 1))
  write (fp - 3) result
  let sp ← minus fp 2
  modify fun m => { m with sp }
  let caller ← of (Machine.restored (← of (Machine.read (← plus sp 1))))
  modify fun m => { m with fp := caller }
  let next ← of (Machine.restored (← of (Machine.read sp)))
  of (Machine.jump next)

def execute (i : Instruction) (next : Nat) : Sized Unit :=
  match i with
  | .nop => of (Machine.jump next)
  | .push w => do
    push w
    of (Machine.jump next)
  | .load slot => do
    let w ← of (Machine.read (← plus (← get).fp slot))
    push w
    of (Machine.jump next)
  | .store slot => do
    let w ← pop
    write (← plus (← get).fp slot) w
    of (Machine.jump next)
  | .arith op => do
    arith op
    of (Machine.jump next)
  | .branch test target => branch test target next
  | .goto target => of (Machine.jump target)
  | .call target => call target next
  | .ret => ret
  | .stop => modify fun m => { m with halted := true }

/-- Where there is an opcode, the operand is looked for behind it. -/
def step : Sized Unit := do
  let m ← get
  plusIf (m.ip < m.code.size) m.ip 1
  let i ← of Machine.fetching
  execute i (← plus (← get).ip i.width)

def reset (arg : Word) : Sized Unit := do
  modify fun m => { m with ip := 0, sp := 0, fp := 0, halted := false, stack := .empty }
  push arg

def runFor : Nat → Sized Bool
  | 0 => fun m => .ok m.halted m
  | bound + 1 => fun m => if m.halted then .ok true m else (step >>= fun _ => runFor bound) m

def run (bound : Nat) (arg : Word) : Sized (Option Word) := do
  reset arg
  if ← runFor bound then
    let result ← of (Machine.read 0)
    return some result
  else
    return none

end Sized

end Solo
