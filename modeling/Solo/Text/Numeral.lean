import Solo.Word

/-! Reading decimal numerals. The characters are read left to right and the first that does not
fit decides how reading fails: a character that is no digit, or a digit that takes the value out of
the range asked for. Only the ten ASCII digits count. -/

namespace Solo

inductive NumeralError where
  | empty
  | invalidDigit
  | tooLarge
  | tooSmall
  deriving DecidableEq, Repr

def NumeralError.message : NumeralError → String
  | .empty => "cannot parse integer from empty string"
  | .invalidDigit => "invalid digit found in string"
  | .tooLarge => "number too large to fit in target type"
  | .tooSmall => "number too small to fit in target type"

namespace Numeral

/-- Reads on after digits of value `acc`. Each digit counts away from zero in the direction of
`sign`, and the value stays between `lo` and `hi`. -/
def digits (lo hi sign : Int) : Int → List Char → Except NumeralError Int
  | acc, [] => .ok acc
  | acc, c :: cs =>
    if c.isDigit then
      let acc := 10 * acc + sign * (c.toNat - '0'.toNat : Nat)
      if hi < acc then .error .tooLarge
      else if acc < lo then .error .tooSmall
      else digits lo hi sign acc cs
    else .error .invalidDigit

/-- Reads a word: digits, after a sign or none. A sign alone is not a numeral. -/
def word (cs : List Char) : Except NumeralError Word :=
  let signed (sign : Int) (ds : List Char) : Except NumeralError Word :=
    (digits Int32.minValue.toInt Int32.maxValue.toInt sign 0 ds).map Int32.ofInt
  match cs with
  | [] => .error .empty
  | ['+'] | ['-'] => .error .invalidDigit
  | '+' :: ds => signed 1 ds
  | '-' :: ds => signed (-1) ds
  | ds => signed 1 ds

/-- Reads a size of at most 64 bits: digits, after a plus sign or none. -/
def size (cs : List Char) : Except NumeralError Nat :=
  let unsigned (ds : List Char) : Except NumeralError Nat :=
    (digits 0 (UInt64.size - 1 : Nat) 1 0 ds).map Int.toNat
  match cs with
  | [] => .error .empty
  | ['+'] => .error .invalidDigit
  | '+' :: ds => unsigned ds
  | ds => unsigned ds

end Numeral

end Solo
