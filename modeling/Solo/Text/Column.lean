/-! Columns of a listing: text filled up with blanks to a least width. Longer text is kept whole. -/

namespace Solo.Column

def blanks (n : Nat) : String := String.ofList (List.replicate n ' ')

/-- `s` at the right end of a column of `width` characters. -/
def alignRight (width : Nat) (s : String) : String := blanks (width - s.length) ++ s

/-- `s` at the left end of a column of `width` characters. -/
def alignLeft (width : Nat) (s : String) : String := s ++ blanks (width - s.length)

end Solo.Column
