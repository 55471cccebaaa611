import Solo.Bytecode.Basic
import Solo.Compile.Error
import Solo.Instruction.Basic

/-! The rules of the grammar, each of which reads what it describes and writes code for it:

    Program    = Function
    Function   = identifier "(" identifier ")" Block
    Block      = "{" { Statement } "}"
    Statement  = identifier "=" Expression ";"
               | "if" Condition Statement "else" Statement
               | "while" Condition Statement
               | "return" Expression ";"
               | Block
               | ";"
    Condition  = "(" Expression ("==" | "!=" | ">" | "<") Expression ")"
    Expression = Term { ("+" | "-") Term }
    Term       = Factor { ("*" | "/") Factor }
    Factor     = number | identifier | "(" Expression ")" | identifier "(" Expression ")"

Sums group to the left. Behind `*` and `/` a whole term is read, so products group to the right. Code
for an expression leaves its value on the stack.

The rules are the same whatever they read from and write to; `Toolkit` is what they need of it. Calls
go to the address `entry`. The number that a rule takes bounds how deeply rules can be nested. -/

namespace Solo

open Bytecode (bodyAddr)

/-- What the rules are made of. -/
class Toolkit (m : Type → Type) where
  token : m Token
  /-- The address of the next instruction. -/
  here : m Nat
  /-- Looks at the next token. -/
  advance : m Unit
  /-- Fails at the token that is looked at. -/
  reject : {α : Type} → Expected → m α
  emit : Instruction → m Unit
  /-- Writes a jump whose target will be known later, and gives its index in the code. -/
  emitJump : Instruction → m Nat
  /-- Makes the jump at an index go to the next instruction to be written. -/
  patch : Nat → m Unit
  /-- What a rule does that has used up its depth. -/
  spent : Expected → m Unit

variable {m : Type → Type} [Monad m] [Toolkit m]

namespace Toolkit

/-- Moves past a token `t`. -/
def expect (t : Token) : m Unit := do
  if (← token) = t then advance else reject (.token t)

/-- Moves past a name and gives its slot. -/
def name (expected : Expected) : m Nat := do
  match ← token with
  | .ident _ slot =>
    advance
    return slot
  | _ => reject expected

end Toolkit

open Toolkit

namespace Rules

def additive? : Token → Option Arith
  | .punct .plus => some .add
  | .punct .minus => some .sub
  | _ => none

def multiplicative? : Token → Option Arith
  | .punct .star => some .mul
  | .punct .slash => some .div
  | _ => none

/-- The test that holds when the relation written by a token does not. -/
def negated? : Token → Option Comparison
  | .punct .eq => some .ne
  | .punct .ne => some .eq
  | .punct .greater => some .le
  | .punct .less => some .ge
  | _ => none

def parens (inner : m Unit) : m Unit := do
  expect (.punct .lparen)
  inner
  expect (.punct .rparen)

def braces (inner : m Unit) : m Unit := do
  expect (.punct .lbrace)
  inner
  expect (.punct .rbrace)

mutual

def expression (entry : Nat) : Nat → m Unit
  | 0 => spent .expression
  | n + 1 => do
    term entry n
    operations additive? entry n

def term (entry : Nat) : Nat → m Unit
  | 0 => spent .expression
  | n + 1 => do
    factor entry n
    operations multiplicative? entry n

/-- As long as one of the operators is looked at, reads it and a term behind it. -/
def operations (op? : Token → Option Arith) (entry : Nat) : Nat → m Unit
  | 0 => spent .expression
  | n + 1 => do
    match op? (← token) with
    | some op =>
      advance
      term entry n
      emit (.arith op)
      operations op? entry n
    | none => pure ()

def factor (entry : Nat) : Nat → m Unit
  | 0 => spent .expression
  | n + 1 => do
    match ← token with
    | .punct .lparen => parens (expression entry n)
    | .number value =>
      emit (.push value)
      advance
    | .ident _ slot =>
      advance
      -- whatever it is called, there is only one function to call
      if (← token) = .punct .lparen then
        parens (expression entry n)
        emit (.call entry)
      else
        emit (.load slot)
    | _ => reject .expression

end

/-- Gives the jump that is taken when the condition is false. -/
def condition (entry n : Nat) : m Nat := do
  expect (.punct .lparen)
  expression entry n
  match negated? (← token) with
  | some test =>
    advance
    expression entry n
    expect (.punct .rparen)
    emitJump (.branch test 0)
  | none => reject .relationalOperator

mutual

def statement (entry : Nat) : Nat → m Unit
  | 0 => spent .statement
  | n + 1 => do
    match ← token with
    | .ident _ slot =>
      advance
      expect (.punct .assign)
      expression entry n
      emit (.store slot)
      expect (.punct .semicolon)
    | .keyword .ifK =>
      advance
      let skipThen ← condition entry n
      statement entry n
      let skipElse ← emitJump (.goto 0)
      expect (.keyword .elseK)
      patch skipThen
      statement entry n
      patch skipElse
    | .keyword .whileK =>
      advance
      let top ← here
      let exit ← condition entry n
      statement entry n
      emit (.goto top)
      patch exit
    | .keyword .returnK =>
      advance
      expression entry n
      emit .ret
      expect (.punct .semicolon)
    | .punct .lbrace => braces (statements entry n)
    | .punct .semicolon => advance
    | _ => reject .statement

/-- The statements of a block, up to the brace that closes it. -/
def statements (entry : Nat) : Nat → m Unit
  | 0 => spent .statement
  | n + 1 => do
    if (← token) = .punct .rbrace then pure ()
    else
      statement entry n
      statements entry n

end

/-- Gives the slot of the parameter. -/
def function (entry n : Nat) : m Nat := do
  let _ ← name .functionName
  expect (.punct .lparen)
  let param ← name .parameterName
  expect (.punct .rparen)
  braces (statements entry n)
  emit .nop
  return param

/-- The call of the function, and the function behind it. Gives the address of the function and the
slot of its parameter. -/
def opening (n : Nat) : m (Nat × Nat) := do
  emit (.call bodyAddr)
  emit .stop
  let entry ← here
  let param ← function entry n
  return (entry, param)

def program (n : Nat) : m (Nat × Nat) := do
  advance
  let start ← opening n
  expect .eof
  return start

end Rules

end Solo
