/-! Words are 32-bit two's complement integers: sums and products wrap, and division goes toward
zero. Sizes (addresses, slots, register values) are natural numbers; this file also says how the
two are turned into each other. -/

namespace Solo

abbrev Word := Int32

namespace Word

/-- The word with the low 32 bits of `n`. Sizes that become operands are cut this way. -/
def ofSize (n : Nat) : Word := Int32.ofNat n

/-- The sizes that are words are those below this, two to the power of 31. -/
def sizeLimit : Nat := 2147483648

/-- The word equal to `n`, if there is one. -/
def ofNat? (n : Nat) : Option Word := if n < sizeLimit then some (ofSize n) else none

/-- The size equal to `w`, if `w` is not negative. -/
def toNat? (w : Word) : Option Nat := if w.toInt < 0 then none else some w.toInt.toNat

/-- `w` in signed decimal. -/
def text (w : Word) : String := toString w.toInt

end Word

/-- The operations that take two words off the stack and put one back. -/
inductive Arith where
  | add
  | sub
  | mul
  | div
  deriving DecidableEq, Repr

/-- The result, or nothing if it would be a quotient by zero. -/
def Arith.apply : Arith → Word → Word → Option Word
  | .add, a, b => some (a + b)
  | .sub, a, b => some (a - b)
  | .mul, a, b => some (a * b)
  | .div, a, b => if b = 0 then none else some (a / b)

/-- The tests on which the machine can branch. -/
inductive Comparison where
  | eq
  | ne
  | le
  | ge
  deriving DecidableEq, Repr

def Comparison.holds : Comparison → Word → Word → Bool
  | .eq, a, b => decide (a = b)
  | .ne, a, b => decide (a ≠ b)
  | .le, a, b => decide (a ≤ b)
  | .ge, a, b => decide (b ≤ a)

end Solo
