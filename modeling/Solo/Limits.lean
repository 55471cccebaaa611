/-! How much room a program may take: words of code, and slots of stack. -/

namespace Solo

structure Limits where
  code : Nat := 1000
  stack : Nat := 10000
  deriving DecidableEq, Repr

/-- Both limits by name, for the log. -/
def Limits.text (l : Limits) : String :=
  "Config \x7b code_capacity: " ++ toString l.code ++ ", stack_capacity: " ++ toString l.stack ++ " \x7d"

end Solo
