import Solo.Bytecode.Basic
import Solo.Grammar.Tree

/-! The code of a tree, made in two passes: first how many words each part takes, then the
instructions with the addresses that follow from it. -/

namespace Solo.Grammar

open Bytecode (bodyAddr)

def SumOp.arith : SumOp → Arith
  | .add => .add
  | .sub => .sub

def ProductOp.arith : ProductOp → Arith
  | .mul => .mul
  | .div => .div

/-- The test that holds when the relation does not. -/
def Relation.negated : Relation → Comparison
  | .eq => .ne
  | .ne => .eq
  | .greater => .le
  | .less => .ge

mutual

def Expression.size : Expression → Nat
  | .term t => t.size
  | .sum e _ t => e.size + t.size + 1

def Term.size : Term → Nat
  | .factor f => f.size
  | .product f _ t => f.size + t.size + 1

def Factor.size : Factor → Nat
  | .number _ => 2
  | .name _ => 2
  | .group e => e.size
  | .call _ arg => arg.size + 2

end

/-- The operands and the branch. -/
def Condition.size (c : Condition) : Nat := c.left.size + c.right.size + 2

mutual

def Statement.size : Statement → Nat
  | .assign _ e => e.size + 2
  | .ifElse c yes no => c.size + yes.size + 2 + no.size
  | .whileDo c body => c.size + body.size + 2
  | .ret e => e.size + 1
  | .block b => b.size
  | .skip => 0

def Block.size : Block → Nat
  | .nil => 0
  | .cons s b => s.size + b.size

end

variable (slot : String → Nat)

mutual

def Expression.code : Expression → List Instruction
  | .term t => t.code
  | .sum e op t => e.code ++ t.code ++ [.arith op.arith]

def Term.code : Term → List Instruction
  | .factor f => f.code
  | .product f op t => f.code ++ t.code ++ [.arith op.arith]

def Factor.code : Factor → List Instruction
  | .number value => [.push value]
  | .name x => [.load (slot x)]
  | .group e => e.code
  | .call _ arg => arg.code ++ [.call bodyAddr]

end

/-- Goes to `otherwise` if the condition is false. -/
def Condition.code (c : Condition) (otherwise : Nat) : List Instruction :=
  c.left.code slot ++ c.right.code slot ++ [.branch c.relation.negated otherwise]

mutual

/-- The code of a statement that starts at `addr`. -/
def Statement.code : Statement → (addr : Nat) → List Instruction
  | .assign name e, _ => e.code slot ++ [.store (slot name)]
  | .ifElse c yes no, addr =>
    let otherwise := addr + c.size + yes.size + 2
    c.code slot otherwise ++ yes.code (addr + c.size) ++ [.goto (otherwise + no.size)] ++
      no.code otherwise
  | .whileDo c body, addr =>
    c.code slot (addr + c.size + body.size + 2) ++ body.code (addr + c.size) ++ [.goto addr]
  | .ret e, _ => e.code slot ++ [.ret]
  | .block b, addr => b.code addr
  | .skip, _ => []

def Block.code : Block → (addr : Nat) → List Instruction
  | .nil, _ => []
  | .cons s b, addr => s.code addr ++ b.code (addr + s.size)

end

def Program.code (p : Program) : List Instruction :=
  [.call bodyAddr, .stop] ++ p.body.code slot bodyAddr ++ [.nop]

end Solo.Grammar
