import Solo.Token.Basic

/-! Programs as trees. A tree has the shape that the grammar gives to a program: sums group to the
left, products to the right, and parentheses are kept. Names are the names of the source. -/

namespace Solo.Grammar

inductive SumOp where
  | add
  | sub
  deriving DecidableEq, Repr

inductive ProductOp where
  | mul
  | div
  deriving DecidableEq, Repr

inductive Relation where
  | eq
  | ne
  | greater
  | less
  deriving DecidableEq, Repr

mutual

inductive Expression where
  | term (t : Term)
  | sum (e : Expression) (op : SumOp) (t : Term)

inductive Term where
  | factor (f : Factor)
  | product (f : Factor) (op : ProductOp) (t : Term)

inductive Factor where
  | number (value : Word)
  | name (x : String)
  | group (e : Expression)
  | call (name : String) (arg : Expression)

end

structure Condition where
  left : Expression
  relation : Relation
  right : Expression

mutual

inductive Statement where
  | assign (name : String) (e : Expression)
  | ifElse (c : Condition) (yes no : Statement)
  | whileDo (c : Condition) (body : Statement)
  | ret (e : Expression)
  | block (b : Block)
  | skip

inductive Block where
  | nil
  | cons (s : Statement) (b : Block)

end

structure Program where
  name : String
  param : String
  body : Block

end Solo.Grammar
