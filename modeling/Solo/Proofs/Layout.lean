import Solo.Grammar.Code

/-! Where code stands. Addresses count words, so the address of an instruction is the width of what
stands before it. The size that a tree is given is the width of its code. -/

namespace Solo

theorem Instruction.width_pos (i : Instruction) : 0 < i.width := by
  unfold Instruction.width
  split <;> omega

@[simp] theorem width_nil : width [] = 0 := rfl

@[simp] theorem width_cons (i : Instruction) (is : List Instruction) :
    width (i :: is) = i.width + width is := rfl

@[simp] theorem width_append (is js : List Instruction) : width (is ++ js) = width is + width js := by
  induction is with
  | nil => exact (Nat.zero_add _).symm
  | cons i is ih => rw [List.cons_append, width_cons, width_cons, ih, Nat.add_assoc]

@[simp] theorem Instruction.width_retarget (i : Instruction) (target : Nat) :
    (i.retarget target).width = i.width := by
  cases i <;> rfl

/-- The address of an instruction is the width of what stands before it. -/
theorem mem_addressedFrom (addr : Nat) (pre post : List Instruction) (i : Instruction) :
    (addr + width pre, i) ∈ Bytecode.addressedFrom addr (pre ++ i :: post) := by
  induction pre generalizing addr with
  | nil => exact List.mem_cons_self
  | cons j pre ih =>
    rw [width_cons, ← Nat.add_assoc]
    exact List.mem_cons_of_mem _ (ih (addr + j.width))

theorem addressedFrom_append (addr : Nat) (is js : List Instruction) :
    Bytecode.addressedFrom addr (is ++ js) =
      Bytecode.addressedFrom addr is ++ Bytecode.addressedFrom (addr + width is) js := by
  induction is generalizing addr with
  | nil => rfl
  | cons i is ih =>
    rw [List.cons_append, Bytecode.addressedFrom, ih, width_cons, ← Nat.add_assoc]
    rfl

theorem length_addressedFrom (addr : Nat) (is : List Instruction) :
    (Bytecode.addressedFrom addr is).length = is.length := by
  induction is generalizing addr with
  | nil => rfl
  | cons i is ih => rw [Bytecode.addressedFrom, List.length_cons, ih, List.length_cons]

theorem getElem?_addressedFrom (addr : Nat) (pre post : List Instruction) (i : Instruction) :
    (Bytecode.addressedFrom addr (pre ++ i :: post))[pre.length]? = some (addr + width pre, i) := by
  rw [addressedFrom_append, List.getElem?_append_right (Nat.le_of_eq (length_addressedFrom addr pre)),
    length_addressedFrom, Nat.sub_self]
  rfl

theorem exists_of_mem_addressedFrom {addr at_ : Nat} {is : List Instruction} {i : Instruction}
    (h : (at_, i) ∈ Bytecode.addressedFrom addr is) :
    ∃ pre post, is = pre ++ i :: post ∧ at_ = addr + width pre := by
  induction is generalizing addr with
  | nil => cases h
  | cons j is ih =>
    rcases List.mem_cons.1 h with heq | hmem
    · obtain ⟨rfl, rfl⟩ := Prod.mk.inj heq
      exact ⟨[], is, rfl, rfl⟩
    · obtain ⟨pre, post, rfl, rfl⟩ := ih hmem
      exact ⟨j :: pre, post, rfl, by rw [width_cons, Nat.add_assoc]⟩

theorem width_modify_retarget (is : List Instruction) (index target : Nat) :
    width (is.modify index (Instruction.retarget target)) = width is := by
  conv => rhs; rw [← List.take_append_drop index is]
  rw [List.modify_eq_take_drop, width_append, width_append]
  cases is.drop index <;> simp

namespace Grammar

variable (slot : String → Nat)

mutual

@[simp] theorem Expression.width_code : (e : Expression) → width (e.code slot) = e.size
  | .term t => by rw [Expression.code, t.width_code, Expression.size]
  | .sum e op t => by
    simp only [Expression.code, width_append, e.width_code, t.width_code]
    rfl

@[simp] theorem Term.width_code : (t : Term) → width (t.code slot) = t.size
  | .factor f => by rw [Term.code, f.width_code, Term.size]
  | .product f op t => by
    simp only [Term.code, width_append, f.width_code, t.width_code]
    rfl

@[simp] theorem Factor.width_code : (f : Factor) → width (f.code slot) = f.size
  | .number _ => rfl
  | .name _ => rfl
  | .group e => by rw [Factor.code, e.width_code, Factor.size]
  | .call _ arg => by
    simp only [Factor.code, width_append, arg.width_code]
    rfl

end

@[simp] theorem Condition.width_code (c : Condition) (otherwise : Nat) :
    width (c.code slot otherwise) = c.size := by
  simp only [Condition.code, width_append, Expression.width_code]
  rfl

mutual

@[simp] theorem Statement.width_code : (s : Statement) → (addr : Nat) →
    width (s.code slot addr) = s.size
  | .assign _ e, _ => by
    simp only [Statement.code, width_append, Expression.width_code]
    rfl
  | .ifElse c yes no, addr => by
    simp only [Statement.code, width_append, Condition.width_code, yes.width_code, no.width_code]
    rfl
  | .whileDo c body, addr => by
    simp only [Statement.code, width_append, Condition.width_code, body.width_code]
    rfl
  | .ret e, _ => by
    simp only [Statement.code, width_append, Expression.width_code]
    rfl
  | .block b, addr => by rw [Statement.code, b.width_code, Statement.size]
  | .skip, _ => rfl

@[simp] theorem Block.width_code : (b : Block) → (addr : Nat) → width (b.code slot addr) = b.size
  | .nil, _ => rfl
  | .cons s b, addr => by
    simp only [Block.code, width_append, s.width_code, b.width_code]
    rfl

end

theorem Program.width_code (p : Program) : width (p.code slot) = 3 + p.body.size + 1 := by
  simp only [Program.code, width_append, Block.width_code]
  rfl

end Grammar

end Solo
