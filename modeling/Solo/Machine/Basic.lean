import Solo.Bytecode.Basic
import Solo.Limits
import Solo.Machine.Stack

/-! The machine and the small actions that its instructions are made of. A frame lies on the stack:
below `fp` the return address and the caller's `fp`, at `fp` and above the slots of the function's
variables, and above those its operands. Words at `sp` and above are left over from before; they are
kept, because later steps can come to see them again.

An action that fails leaves the machine as it has made it so far. -/

namespace Solo

structure Machine where
  code : Array Word
  frameSize : Nat
  paramSlot : Nat
  /-- How many words the stack may have. -/
  capacity : Nat
  ip : Nat := 0
  sp : Nat := 0
  fp : Nat := 0
  halted : Bool := false
  stack : Stack := .empty
  deriving DecidableEq, Repr

abbrev Action := EStateM Fault Machine

namespace Machine

def load (b : Bytecode) (l : Limits) : Machine :=
  { code := b.words.toArray, frameSize := b.frameSize, paramSlot := b.paramSlot, capacity := l.stack }

/-- The part of the stack in use, bottom first. -/
def live (m : Machine) : List Word := m.stack.take m.sp

/-- Fails at the current instruction. -/
def fail {α : Type} (cause : Fault.Cause) : Action α := fun m => .error ⟨m.ip, cause⟩ m

/-- Fails unless `p` holds. -/
def ensure (p : Prop) [Decidable p] (cause : Fault.Cause) : Action Unit :=
  if p then pure () else fail cause

def overflow {α : Type} : Action α := fun m => fail (.stackOverflow m.capacity) m

/-- Fails unless the stack may have `n` words. -/
def ensureRoom (n : Nat) : Action Unit := fun m => if n ≤ m.capacity then .ok () m else overflow m

def read (i : Nat) : Action Word := fun m =>
  if i < m.capacity then .ok (m.stack.get i) m else overflow m

def write (i : Nat) (w : Word) : Action Unit := fun m =>
  if i < m.capacity then .ok () { m with stack := m.stack.set i w } else overflow m

def push (w : Word) : Action Unit := do
  write (← get).sp w
  modify fun m => { m with sp := m.sp + 1 }

def pop : Action Word := fun m =>
  if m.sp = 0 then fail .stackUnderflow m else read (m.sp - 1) { m with sp := m.sp - 1 }

def jump (addr : Nat) : Action Unit := modify fun m => { m with ip := addr }

/-- A register's value as the word in which it is saved. -/
def saved (value : Nat) : Action Word :=
  match Word.ofNat? value with
  | some w => pure w
  | none => fail (.illegal (.registerTooLarge value))

/-- The register's value that was saved as `w`. -/
def restored (w : Word) : Action Nat :=
  match Word.toNat? w with
  | some value => pure value
  | none => fail (.illegal (.corruptFrame w))

end Machine

end Solo
