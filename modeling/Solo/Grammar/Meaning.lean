import Solo.Grammar.Tree

/-! What a program means, told on its tree. Operands are evaluated from left to right. Every call,
whatever the name in it, is a call of the one function, in which all variables start at zero but the
parameter. A call that reaches the end of the body without a return has no value.

Evaluation also keeps account of the stack: a pending operand takes one slot, and a call that has
not returned takes two and one for each variable. It is given fuel, since programs need not end. -/

namespace Solo.Grammar

def Relation.holds : Relation → Word → Word → Bool
  | .eq, a, b => decide (a = b)
  | .ne, a, b => decide (a ≠ b)
  | .greater, a, b => decide (b < a)
  | .less, a, b => decide (a < b)

/-- Why evaluation gives no value. -/
inductive Abort where
  | divisionByZero
  | noReturn
  | stackOverflow
  deriving DecidableEq, Repr

/-- A value, the reason why there is none, or nothing if the fuel does not last. -/
abbrev Evaluation := ExceptT Abort Option

abbrev Env := String → Word

/-- How a statement ends: by going on, or by returning from the call. -/
inductive Flow where
  | next (env : Env)
  | returned (value : Word)

/-- What stays the same in a run: the function, how many variables it has, and how many slots the
stack has. -/
structure Setting where
  program : Program
  frameSize : Nat
  capacity : Nat

def outOfFuel {α : Type} : Evaluation α := ExceptT.mk none

/-- Aborts unless there is room for `n` slots. -/
def Setting.occupy (s : Setting) (n : Nat) : Evaluation Unit :=
  if n ≤ s.capacity then pure () else throw .stackOverflow

/-- Results are cut to 32 bits. -/
def SumOp.compute : SumOp → Word → Word → Word
  | .add, a, b => .ofInt (a.toInt + b.toInt)
  | .sub, a, b => .ofInt (a.toInt - b.toInt)

/-- Quotients are cut toward zero. -/
def ProductOp.compute : ProductOp → Word → Word → Evaluation Word
  | .mul, a, b => return .ofInt (a.toInt * b.toInt)
  | .div, a, b => if b = 0 then throw .divisionByZero else return .ofInt (a.toInt.tdiv b.toInt)

/-- The variables when a call starts. -/
def Program.entry (p : Program) (arg : Word) : Env := fun name => if name = p.param then arg else 0

variable (s : Setting)

mutual

/-- The value of an expression when `used` slots are taken. -/
def Expression.eval : Nat → Expression → Env → (used : Nat) → Evaluation Word
  | 0, _, _, _ => outOfFuel
  | n + 1, .term t, env, used => t.eval n env used
  | n + 1, .sum e op t, env, used => do
    let a ← e.eval n env used
    let b ← t.eval n env (used + 1)
    return op.compute a b

def Term.eval : Nat → Term → Env → (used : Nat) → Evaluation Word
  | 0, _, _, _ => outOfFuel
  | n + 1, .factor f, env, used => f.eval n env used
  | n + 1, .product f op t, env, used => do
    let a ← f.eval n env used
    let b ← t.eval n env (used + 1)
    op.compute a b

def Factor.eval : Nat → Factor → Env → (used : Nat) → Evaluation Word
  | 0, _, _, _ => outOfFuel
  | _ + 1, .number value, _, used => do
    s.occupy (used + 1)
    return value
  | _ + 1, .name x, env, used => do
    s.occupy (used + 1)
    return env x
  | n + 1, .group e, env, used => e.eval n env used
  | n + 1, .call _ arg, env, used => do
    let value ← arg.eval n env used
    Setting.call n value (used + 1)

def Condition.eval : Nat → Condition → Env → (used : Nat) → Evaluation Bool
  | 0, _, _, _ => outOfFuel
  | n + 1, c, env, used => do
    let a ← c.left.eval n env used
    let b ← c.right.eval n env (used + 1)
    return c.relation.holds a b

def Statement.exec : Nat → Statement → Env → (used : Nat) → Evaluation Flow
  | 0, _, _, _ => outOfFuel
  | n + 1, .assign name e, env, used => do
    let value ← e.eval n env used
    return .next fun x => if x = name then value else env x
  | n + 1, .ifElse c yes no, env, used => do
    if ← c.eval n env used then yes.exec n env used else no.exec n env used
  | n + 1, .whileDo c body, env, used => do
    if ← c.eval n env used then
      match ← body.exec n env used with
      | .next env => Statement.exec n (.whileDo c body) env used
      | .returned value => return .returned value
    else
      return .next env
  | n + 1, .ret e, env, used => do
    let value ← e.eval n env used
    return .returned value
  | n + 1, .block b, env, used => b.exec n env used
  | _ + 1, .skip, env, _ => return .next env

def Block.exec : Nat → Block → Env → (used : Nat) → Evaluation Flow
  | 0, _, _, _ => outOfFuel
  | _ + 1, .nil, env, _ => return .next env
  | n + 1, .cons first rest, env, used => do
    match ← first.exec n env used with
    | .next env => rest.exec n env used
    | .returned value => return .returned value

/-- Calls the function with an argument that is the last of `used` slots. -/
def Setting.call : Nat → Word → (used : Nat) → Evaluation Word
  | 0, _, _ => outOfFuel
  | n + 1, arg, used => do
    let used := used + 2 + s.frameSize
    s.occupy used
    match ← s.program.body.exec n (s.program.entry arg) used with
    | .next _ => throw .noReturn
    | .returned value => return value

end

/-- The value of the program for `arg`. -/
def Setting.eval (fuel : Nat) (arg : Word) : Evaluation Word := do
  s.occupy 1
  s.call fuel arg 1

end Solo.Grammar
