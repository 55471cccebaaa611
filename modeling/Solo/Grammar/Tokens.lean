import Solo.Grammar.Tree

/-! The tokens of which a tree is written, without the end of file. They depend on the slots that
the names have. The sentences of the grammar are the token lists of trees. -/

namespace Solo.Grammar

def SumOp.punct : SumOp → Punct
  | .add => .plus
  | .sub => .minus

def ProductOp.punct : ProductOp → Punct
  | .mul => .star
  | .div => .slash

def Relation.punct : Relation → Punct
  | .eq => .eq
  | .ne => .ne
  | .greater => .greater
  | .less => .less

def inParens (ts : List Token) : List Token := .punct .lparen :: ts ++ [.punct .rparen]

def inBraces (ts : List Token) : List Token := .punct .lbrace :: ts ++ [.punct .rbrace]

variable (slot : String → Nat)

mutual

def Expression.tokens : Expression → List Token
  | .term t => t.tokens
  | .sum e op t => e.tokens ++ .punct op.punct :: t.tokens

def Term.tokens : Term → List Token
  | .factor f => f.tokens
  | .product f op t => f.tokens ++ .punct op.punct :: t.tokens

def Factor.tokens : Factor → List Token
  | .number value => [.number value]
  | .name x => [.ident x (slot x)]
  | .group e => inParens e.tokens
  | .call name arg => .ident name (slot name) :: inParens arg.tokens

end

def Condition.tokens (c : Condition) : List Token :=
  inParens (c.left.tokens slot ++ .punct c.relation.punct :: c.right.tokens slot)

mutual

def Statement.tokens : Statement → List Token
  | .assign name e =>
    .ident name (slot name) :: .punct .assign :: e.tokens slot ++ [.punct .semicolon]
  | .ifElse c yes no =>
    .keyword .ifK :: c.tokens slot ++ yes.tokens ++ .keyword .elseK :: no.tokens
  | .whileDo c body => .keyword .whileK :: c.tokens slot ++ body.tokens
  | .ret e => .keyword .returnK :: e.tokens slot ++ [.punct .semicolon]
  | .block b => inBraces b.tokens
  | .skip => [.punct .semicolon]

def Block.tokens : Block → List Token
  | .nil => []
  | .cons s b => s.tokens ++ b.tokens

end

def Program.tokens (p : Program) : List Token :=
  .ident p.name (slot p.name) :: inParens [.ident p.param (slot p.param)] ++
    inBraces (p.body.tokens slot)

/-- A list of tokens that the grammar derives. -/
def Sentence (ts : List Token) : Prop := ∃ p : Program, p.tokens slot = ts

end Solo.Grammar
