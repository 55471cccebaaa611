import Solo.Word

/-! What can stop the machine. Every fault names the address of the instruction at which it
arose. -/

namespace Solo

/-- What can be wrong with code. -/
inductive Defect where
  | outsideCode
  | missingOperand (opcode : Word)
  | negativeOperand (operand : Word)
  | unknownOpcode (opcode : Word)
  | noReturn
  | registerTooLarge (value : Nat)
  | corruptFrame (saved : Word)
  deriving DecidableEq, Repr

def Defect.message : Defect → String
  | .outsideCode => "instruction pointer outside code"
  | .missingOperand opcode => "missing operand for opcode " ++ Word.text opcode
  | .negativeOperand operand => "negative operand " ++ Word.text operand
  | .unknownOpcode opcode => "unknown opcode " ++ Word.text opcode
  | .noReturn => "function ended without return"
  | .registerTooLarge value => "address " ++ toString value ++ " does not fit a word"
  | .corruptFrame saved => "corrupt frame: saved register " ++ Word.text saved

namespace Fault

inductive Cause where
  | illegal (defect : Defect)
  | divisionByZero
  | stackOverflow (capacity : Nat)
  | stackUnderflow
  deriving DecidableEq, Repr

end Fault

structure Fault where
  ip : Nat
  cause : Fault.Cause
  deriving DecidableEq, Repr

def Fault.message (f : Fault) : String :=
  let at_ := " at address " ++ toString f.ip
  match f.cause with
  | .illegal defect => "illegal instruction" ++ at_ ++ ": " ++ defect.message
  | .divisionByZero => "division by zero" ++ at_
  | .stackOverflow capacity =>
    "stack overflow" ++ at_ ++ ": capacity of " ++ toString capacity ++ " slots exceeded"
  | .stackUnderflow => "stack underflow" ++ at_

end Solo
