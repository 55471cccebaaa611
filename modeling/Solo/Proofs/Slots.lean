import Solo.Token.Basic
import Solo.SymbolTable

/-! Slots follow the order in which names first occur. The slot of a name is its index in the list
of distinct names, and interning the names of a token list one by one builds exactly that list. -/

namespace Solo

def Token.name? : Token → Option String
  | .ident name _ => some name
  | _ => none

/-- The names in `ts`, each once, in the order of first occurrence. -/
def distinctNames (ts : List Token) : List String := (ts.filterMap Token.name?).eraseDups

/-- The slot that a name gets in `ts`. -/
def slotIn (ts : List Token) (name : String) : Nat := (distinctNames ts).idxOf name

theorem eraseDups_concat (l : List String) (x : String) :
    (l ++ [x]).eraseDups = if x ∈ l then l.eraseDups else l.eraseDups ++ [x] := by
  rw [List.eraseDups_append]
  split
  · next h => simp [List.removeAll, h]
  · next h => simp [List.removeAll, h, List.eraseDups_cons]

theorem length_eraseDups_le (l : List String) : l.eraseDups.length ≤ l.length := by
  match l with
  | [] => exact Nat.le_refl 0
  | x :: l =>
    have hfilter := List.length_filter_le (fun y => !y == x) l
    have hrest := length_eraseDups_le (l.filter fun y => !y == x)
    rw [List.eraseDups_cons, List.length_cons, List.length_cons]
    omega
  termination_by l.length

theorem distinctNames_concat (ts : List Token) (t : Token) :
    distinctNames (ts ++ [t]) = match t.name? with
      | some x => if x ∈ distinctNames ts then distinctNames ts else distinctNames ts ++ [x]
      | none => distinctNames ts := by
  unfold distinctNames
  rw [List.filterMap_append]
  cases h : t.name? with
  | none => simp [h]
  | some x =>
    rw [show List.filterMap Token.name? [t] = [x] by simp [h], eraseDups_concat]
    simp only [List.mem_eraseDups]

theorem distinctNames_prefix (ts us : List Token) : distinctNames ts <+: distinctNames (ts ++ us) := by
  unfold distinctNames
  rw [List.filterMap_append, List.eraseDups_append]
  exact List.prefix_append _ _

/-- A name that has occurred keeps its slot, whatever follows. -/
theorem slotIn_append {ts : List Token} {x : String} (h : x ∈ distinctNames ts) (us : List Token) :
    slotIn (ts ++ us) x = slotIn ts x := by
  obtain ⟨new, hnew⟩ := distinctNames_prefix ts us
  rw [slotIn, ← hnew, List.idxOf_append, if_pos h, slotIn]

theorem slotIn_lt {ts : List Token} {t : Token} {x : String} (ht : t ∈ ts) (hx : t.name? = some x) :
    slotIn ts x < (distinctNames ts).length := by
  apply List.idxOf_lt_length_of_mem
  rw [distinctNames, List.mem_eraseDups]
  exact List.mem_filterMap.2 ⟨t, ht, hx⟩

theorem slotIn_inj {ts : List Token} {x y : String} (h : slotIn ts x = slotIn ts y)
    (hx : slotIn ts x < (distinctNames ts).length) : x = y := by
  have hy : slotIn ts y < (distinctNames ts).length := h ▸ hx
  have ex : (distinctNames ts)[slotIn ts x] = x := List.getElem_idxOf hx
  have ey : (distinctNames ts)[slotIn ts y] = y := List.getElem_idxOf hy
  rw [← ex, ← ey]
  simp only [h]

namespace SymbolTable

/-- The map sends every name to its index and nothing else anywhere. -/
def Valid (t : SymbolTable) : Prop :=
  ∀ x, t.slots[x]? = if x ∈ t.names.toList then some (t.names.toList.idxOf x) else none

theorem valid_empty : empty.Valid := fun x => by
  simp [empty]

variable {t : SymbolTable}

theorem Valid.intern_of_mem (h : t.Valid) {x : String} (hx : x ∈ t.names.toList) :
    t.intern x = (t.names.toList.idxOf x, t) := by
  simp only [intern, h x, if_pos hx]

theorem Valid.intern_of_not_mem (h : t.Valid) {x : String} (hx : x ∉ t.names.toList) :
    t.intern x = (t.names.size, ⟨t.names.push x, t.slots.insert x t.names.size⟩) := by
  simp only [intern, h x, if_neg hx]

theorem Valid.intern_slot (h : t.Valid) (x : String) :
    (t.intern x).1 = (t.intern x).2.names.toList.idxOf x := by
  by_cases hx : x ∈ t.names.toList
  · rw [h.intern_of_mem hx]
  · rw [h.intern_of_not_mem hx, Array.toList_push, List.idxOf_append, if_neg hx]
    simp

theorem Valid.intern_names (h : t.Valid) (x : String) :
    (t.intern x).2.names.toList =
      if x ∈ t.names.toList then t.names.toList else t.names.toList ++ [x] := by
  split
  · next hx => rw [h.intern_of_mem hx]
  · next hx => rw [h.intern_of_not_mem hx, Array.toList_push]

theorem Valid.intern_valid (h : t.Valid) (x : String) : (t.intern x).2.Valid := by
  by_cases hx : x ∈ t.names.toList
  · rw [h.intern_of_mem hx]
    exact h
  · rw [h.intern_of_not_mem hx]
    intro y
    rw [Std.TreeMap.getElem?_insert, h y, Array.toList_push]
    by_cases hy : x = y
    · subst hy
      have hmem : x ∈ t.names.toList ++ [x] := List.mem_append_right _ (List.mem_singleton_self x)
      rw [if_pos Std.ReflCmp.compare_self, if_pos hmem, List.idxOf_append, if_neg hx]
      simp
    · have hcmp : compare x y ≠ .eq := fun he => hy (Std.LawfulEqCmp.eq_of_compare he)
      rw [if_neg hcmp]
      by_cases hmem : y ∈ t.names.toList
      · rw [if_pos hmem, if_pos (List.mem_append_left _ hmem), List.idxOf_append, if_pos hmem]
      · rw [if_neg hmem, if_neg (by simpa [hmem] using Ne.symm hy)]

end SymbolTable

end Solo
