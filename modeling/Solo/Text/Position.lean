/-! Where a character stands in a text. Lines end at line feeds, and columns count characters. -/

namespace Solo

structure Position where
  line : Nat := 1
  column : Nat := 1
  deriving DecidableEq, Repr

namespace Position

/-- The place after a character `c` that stands at `p`. -/
def after (p : Position) (c : Char) : Position :=
  if c = '\n' then ⟨p.line + 1, 1⟩ else ⟨p.line, p.column + 1⟩

/-- The place after the characters `cs` that start at `p`. -/
def afterAll (p : Position) (cs : List Char) : Position := cs.foldl after p

def text (p : Position) : String := toString p.line ++ ":" ++ toString p.column

end Position

end Solo
