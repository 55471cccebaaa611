import Solo.Word

/-! The words of the machine's stack. The stack grows when a word is put beyond its end; a word
that it has not grown to reads as zero. -/

namespace Solo

structure Stack where
  words : Array Word := #[]
  deriving DecidableEq, Repr

namespace Stack

def empty : Stack := {}

def size (s : Stack) : Nat := s.words.size

def get (s : Stack) (i : Nat) : Word := s.words.getD i 0

/-- Puts `w` at index `i`, and zeros in a gap below it. -/
def set (s : Stack) (i : Nat) (w : Word) : Stack :=
  if h : i < s.words.size then ⟨s.words.set i w h⟩
  else ⟨(s.words ++ Array.replicate (i - s.words.size) 0).push w⟩

/-- Puts zeros at the `n` indices from `i`. -/
def clear (s : Stack) (i : Nat) : Nat → Stack
  | 0 => s
  | n + 1 => (s.set i 0).clear (i + 1) n

/-- The words below index `n`. -/
def take (s : Stack) (n : Nat) : List Word := (List.range n).map s.get

theorem get_set (s : Stack) (i : Nat) (w : Word) (j : Nat) :
    (s.set i w).get j = if j = i then w else s.get j := by
  unfold set get
  split
  · simp only [Array.getD_eq_getD_getElem?, Array.getElem?_set]
    grind
  · simp only [Array.getD_eq_getD_getElem?, Array.getElem?_push, Array.getElem?_append,
      Array.size_append, Array.size_replicate, Array.getElem?_replicate]
    grind

theorem size_set (s : Stack) (i : Nat) (w : Word) : (s.set i w).size = max s.size (i + 1) := by
  unfold set size
  split
  · rw [Array.size_set]; omega
  · rw [Array.size_push, Array.size_append, Array.size_replicate]; omega

theorem get_clear (s : Stack) (i n j : Nat) :
    (s.clear i n).get j = if i ≤ j ∧ j < i + n then 0 else s.get j := by
  induction n generalizing s i with
  | zero => rw [clear, if_neg (by omega)]
  | succ n ih =>
    rw [clear, ih, get_set]
    grind

theorem size_clear (s : Stack) (i n : Nat) :
    (s.clear i n).size = if n = 0 then s.size else max s.size (i + n) := by
  induction n generalizing s i with
  | zero => rfl
  | succ n ih =>
    rw [clear, ih, size_set, if_neg (Nat.succ_ne_zero n)]
    split <;> omega

end Stack

end Solo
