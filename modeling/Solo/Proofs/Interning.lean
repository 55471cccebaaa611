import Solo.Proofs.Slots

/-! Tables over whole histories. Whatever a table has been asked since it was empty, it holds the strings
that were interned, each once and in the order in which they first came, and its map leads from each of
them back to its index. So a name gets its slot when it is first interned and has it ever after. -/

namespace Solo.SymbolTable

/-- What a table can be asked. -/
inductive Request where
  | intern (name : String)
  | name (slot : Nat)
  | size
  | isEmpty
  | entries

inductive Answer where
  | slot (k : Nat)
  | name (x : Option String)
  | size (n : Nat)
  | isEmpty (b : Bool)
  | entries (es : List (Nat × String))
  deriving DecidableEq

namespace Request

/-- What the table answers, and the table after that. -/
def ask : Request → SymbolTable → Answer × SymbolTable
  | .intern x, t => (.slot (t.intern x).1, (t.intern x).2)
  | .name k, t => (.name (t.name? k), t)
  | .size, t => (.size t.size, t)
  | .isEmpty, t => (.isEmpty t.isEmpty, t)
  | .entries, t => (.entries t.entries, t)

def interned? : Request → Option String
  | .intern x => some x
  | _ => none

end Request

/-- What the table answers to one request after the other, and the table that is left. -/
def serve : List Request → SymbolTable → List Answer × SymbolTable
  | [], t => ([], t)
  | r :: rs, t => Prod.map ((r.ask t).1 :: ·) id (serve rs (r.ask t).2)

/-- The strings that are interned, each once, in the order of first occurrence. -/
def interned (rs : List Request) : List String := (rs.filterMap Request.interned?).eraseDups

/-- The table holds what has come of interning `xs`. -/
structure Holds (t : SymbolTable) (xs : List String) : Prop where
  valid : t.Valid
  names : t.names.toList = xs.eraseDups
  nodup : t.names.toList.Nodup

theorem holds_empty : Holds empty [] := ⟨valid_empty, rfl, List.nodup_nil⟩

namespace Holds

variable {t : SymbolTable} {xs : List String}

theorem intern (h : t.Holds xs) (x : String) : (t.intern x).2.Holds (xs ++ [x]) := by
  have hmem : x ∈ t.names.toList ↔ x ∈ xs := by rw [h.names, List.mem_eraseDups]
  refine ⟨h.valid.intern_valid x, ?_, ?_⟩
  · rw [h.valid.intern_names, eraseDups_concat, ← h.names]
    simp only [hmem]
  · rw [h.valid.intern_names]
    split
    · exact h.nodup
    · next hx =>
      have hfresh : ∀ y ∈ t.names.toList, ∀ z ∈ [x], y ≠ z := by
        intro y hy z hz he
        exact hx (List.mem_singleton.1 hz ▸ he ▸ hy)
      exact List.nodup_append.2 ⟨h.nodup, by simp, hfresh⟩

/-- Only interning changes the table. -/
theorem ask (h : t.Holds xs) (r : Request) : (r.ask t).2.Holds (xs ++ r.interned?.toList) := by
  cases r with
  | intern x => exact h.intern x
  | _ => exact (List.append_nil xs).symm ▸ h

theorem serve (h : t.Holds xs) (rs : List Request) :
    (serve rs t).2.Holds (xs ++ rs.filterMap Request.interned?) := by
  induction rs generalizing t xs with
  | nil =>
    rw [List.filterMap_nil, List.append_nil]
    exact h
  | cons r rs ih =>
    have hrest := ih (h.ask r)
    rw [List.append_assoc] at hrest
    cases r <;> exact hrest

/-- The map and the list are inverse to each other. -/
theorem slots_iff (h : t.Holds xs) (x : String) (k : Nat) :
    t.slots[x]? = some k ↔ t.names.toList[k]? = some x := by
  rw [h.valid x, List.getElem?_eq_some_iff]
  constructor
  · intro hk
    split at hk
    · next hx =>
      obtain rfl := Option.some.inj hk
      exact ⟨List.idxOf_lt_length_of_mem hx, List.getElem_idxOf _⟩
    · cases hk
  · rintro ⟨hlt, rfl⟩
    rw [if_pos (List.getElem_mem hlt), h.nodup.idxOf_getElem k hlt]

/-- A name that has been interned is at the index that it was given, whatever comes later. -/
theorem intern_slot (h : t.Holds xs) (x : String) (ys : List String) :
    (t.intern x).1 = (xs ++ x :: ys).eraseDups.idxOf x := by
  have hx : x ∈ (xs ++ [x]).eraseDups := by simp [List.mem_eraseDups]
  have hprefix : (xs ++ [x] ++ ys).eraseDups = (xs ++ [x]).eraseDups ++ _ := List.eraseDups_append
  rw [h.valid.intern_slot, (h.intern x).names, List.append_cons xs x ys, hprefix, List.idxOf_append,
    if_pos hx]

end Holds

theorem serve_append (rs rs' : List Request) (t : SymbolTable) :
    serve (rs ++ rs') t = Prod.map ((serve rs t).1 ++ ·) id (serve rs' (serve rs t).2) := by
  induction rs generalizing t with
  | nil => rfl
  | cons r rs ih =>
    rw [List.cons_append, serve, ih]
    rfl

theorem length_serve (rs : List Request) (t : SymbolTable) : (serve rs t).1.length = rs.length := by
  induction rs generalizing t with
  | nil => rfl
  | cons r rs ih =>
    rw [serve, Prod.map_fst, List.length_cons, ih, List.length_cons]

/-- Each request is answered by the table that those before it have left. -/
theorem getElem?_serve (before after : List Request) (r : Request) (t : SymbolTable) :
    (serve (before ++ r :: after) t).1[before.length]? = some (r.ask (serve before t).2).1 := by
  rw [serve_append, Prod.map_fst, List.getElem?_append_right (Nat.le_of_eq (length_serve before t)),
    length_serve, Nat.sub_self]
  rfl

theorem name?_eq_none_iff (t : SymbolTable) (k : Nat) : t.name? k = none ↔ t.size ≤ k :=
  Array.getElem?_eq_none_iff

theorem entries_eq (t : SymbolTable) :
    t.entries.map (Prod.map id some) = (List.range t.size).map fun k => (k, t.name? k) := by
  apply List.ext_getElem
  · simp [entries, size]
  · intro k hk _
    have hlt : k < t.names.size := by simpa [entries] using hk
    simp [entries, name?, hlt]

/-- What an empty table comes to hold and to answer when it is asked one thing after the other. -/
theorem table_over_history {rs : List Request} {answers : List Answer} {t : SymbolTable}
    (h : serve rs empty = (answers, t)) :
    t.names.toList = interned rs ∧ (interned rs).Nodup ∧
    (∀ (x : String) (k : Nat), t.slots[x]? = some k ↔ (interned rs)[k]? = some x) ∧
    (∀ before r after, rs = before ++ r :: after →
      answers[before.length]? = some (r.ask (serve before empty).2).1) ∧
    (∀ before x after, rs = before ++ .intern x :: after →
      answers[before.length]? = some (.slot ((interned rs).idxOf x)) ∧
        t.name? ((interned rs).idxOf x) = some x) ∧
    (∀ k, t.name? k = none ↔ t.size ≤ k) ∧
    t.entries.map (Prod.map id some) = (List.range t.size).map (fun k => (k, t.name? k)) ∧
    ∀ rs' (x : String) (k : Nat), t.slots[x]? = some k → (serve rs' t).2.slots[x]? = some k := by
  obtain ⟨rfl, rfl⟩ := Prod.mk.inj h
  have hholds := holds_empty.serve rs
  have hnames : (serve rs empty).2.names.toList = interned rs := hholds.names
  refine ⟨hnames, hnames ▸ hholds.nodup, fun x k => hnames ▸ hholds.slots_iff x k, ?_, ?_,
    name?_eq_none_iff _, entries_eq _, fun rs' x k hk => ?_⟩
  · rintro before r after rfl
    exact getElem?_serve before after r empty
  · rintro before x after rfl
    have hinterned : interned (before ++ .intern x :: after) =
        (before.filterMap Request.interned? ++ x :: after.filterMap Request.interned?).eraseDups := by
      rw [interned, List.filterMap_append]
      rfl
    have hx : x ∈ interned (before ++ .intern x :: after) := by simp [hinterned, List.mem_eraseDups]
    constructor
    · rw [getElem?_serve, hinterned]
      exact congrArg (some ∘ Answer.slot) ((holds_empty.serve before).intern_slot x _)
    · rw [name?, ← Array.getElem?_toList, hnames,
        List.getElem?_eq_getElem (List.idxOf_lt_length_of_mem hx), List.getElem_idxOf]
  · -- what the table has is the beginning of what it will have
    have hlater := hholds.serve rs'
    rw [hlater.slots_iff, hlater.names, List.eraseDups_append, ← hholds.names]
    rw [hholds.slots_iff] at hk
    obtain ⟨hlt, -⟩ := List.getElem?_eq_some_iff.1 hk
    rw [List.getElem?_append_left hlt, hk]

theorem table_over_history_repeated : ∃ t,
    serve [.intern "x", .size, .intern "y", .name 1, .intern "x", .name 2, .isEmpty, .entries] empty =
      ([.slot 0, .size 1, .slot 1, .name (some "y"), .slot 0, .name none, .isEmpty false,
        .entries [(0, "x"), (1, "y")]], t) ∧
    t.names.toList = ["x", "y"] ∧ t.slots["x"]? = some 0 ∧
    (serve [.intern "z", .intern "x"] t).2.slots["x"]? = some 0 := by
  have hserve : serve [.intern "x", .size, .intern "y", .name 1, .intern "x", .name 2, .isEmpty,
      .entries] empty = ([.slot 0, .size 1, .slot 1, .name (some "y"), .slot 0, .name none,
        .isEmpty false, .entries [(0, "x"), (1, "y")]], _) := Prod.ext (by decide +kernel) rfl
  obtain ⟨hnames, -, hslots, -, -, -, -, hkeeps⟩ := table_over_history hserve
  have hx := (hslots "x" 0).2 (by decide +kernel)
  exact ⟨_, hserve, hnames.trans (by decide +kernel), hx, hkeeps [.intern "z", .intern "x"] "x" 0 hx⟩

end Solo.SymbolTable
