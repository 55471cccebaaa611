import Std.Data.TreeMap

/-! The names of a program in the order in which they were first met. A name's index is its slot:
the place of the variable in every frame. -/

namespace Solo

structure SymbolTable where
  names : Array String := #[]
  slots : Std.TreeMap String Nat := {}

namespace SymbolTable

def empty : SymbolTable := {}

/-- The slot of `name`, which is a new one if the name has not been met. -/
def intern (t : SymbolTable) (name : String) : Nat × SymbolTable :=
  match t.slots[name]? with
  | some slot => (slot, t)
  | none => (t.names.size, ⟨t.names.push name, t.slots.insert name t.names.size⟩)

def ofNames (names : List String) : SymbolTable := names.foldl (fun t n => (t.intern n).2) empty

def name? (t : SymbolTable) (slot : Nat) : Option String := t.names[slot]?

def size (t : SymbolTable) : Nat := t.names.size

def isEmpty (t : SymbolTable) : Bool := t.names.isEmpty

/-- The slots with their names, in order. -/
def entries (t : SymbolTable) : List (Nat × String) :=
  t.names.toList.mapIdx fun slot name => (slot, name)

end SymbolTable

end Solo
