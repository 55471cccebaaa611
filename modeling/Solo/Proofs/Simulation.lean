import Solo.Proofs.Placement

/-! The machine follows the evaluation of every tree. The induction is on the fuel of the evaluation,
with one statement for each kind of tree. Evaluation that runs out of fuel has gone down so many trees
that calls and loops among them account for the steps that the machine has to make. -/

namespace Solo

open Bytecode (bodyAddr)
open Machine Grammar

/-- What the machine does for an expression that is evaluated by `eval`. -/
def Valued (s : Setting) (slot : String → Nat) (m : Machine) (bound : Nat) (code : List Instruction)
    (ts : List Token) (eval : Env → Nat → Evaluation Word) : Prop :=
  ∀ ⦃addr sp fp stack env⦄, Sits (s.body slot) addr code → (∀ t ∈ ts, t.InFrame slot s.frameSize) →
    Represents slot s.frameSize env fp stack → fp + s.frameSize ≤ sp → sp ≤ s.capacity →
    Follows s bound (m.placed addr sp fp stack) (eval env sp)
      (Leaves m (addr + width code) sp fp stack)

/-- What the machine does for a statement that is executed by `exec`. -/
def Executed (s : Setting) (slot : String → Nat) (m : Machine) (bound : Nat)
    (code : Nat → List Instruction) (ts : List Token) (exec : Env → Nat → Evaluation Flow) : Prop :=
  ∀ ⦃addr fp next caller stack env⦄, Sits (s.body slot) addr (code addr) →
    (∀ t ∈ ts, t.InFrame slot s.frameSize) → Represents slot s.frameSize env fp stack →
    Saved stack fp next caller → fp + s.frameSize ≤ s.capacity →
    Follows s bound (m.placed addr (fp + s.frameSize) fp stack) (exec env (fp + s.frameSize))
      (Finishes slot s.frameSize m (addr + width (code addr)) fp next caller stack)

/-- The fuel `n` is enough for a tree of the given size to account for `bound` steps, if any are asked
for: going down the tree takes one for each step down, and each call and each turn of a loop makes up
for the whole body. -/
def Budget (s : Setting) (bound size n : Nat) : Prop :=
  bound = 0 ∨ bound * (sizeOf s.program.body + 1) + size ≤ n

/-- With fuel `n` the machine follows every evaluation. -/
structure Simulates (s : Setting) (slot : String → Nat) (m : Machine) (n : Nat) : Prop where
  expression : ∀ (e : Expression) {bound}, Budget s bound (sizeOf e) n →
    Valued s slot m bound (e.code slot) (e.tokens slot) (e.eval s n)
  term : ∀ (t : Term) {bound}, Budget s bound (sizeOf t) n →
    Valued s slot m bound (t.code slot) (t.tokens slot) (t.eval s n)
  factor : ∀ (f : Factor) {bound}, Budget s bound (sizeOf f) n →
    Valued s slot m bound (f.code slot) (f.tokens slot) (f.eval s n)
  condition : ∀ (c : Condition) {bound}, Budget s bound (sizeOf c) n → ∀ ⦃addr target sp fp stack env⦄,
    Sits (s.body slot) addr (c.code slot target) →
    (∀ t ∈ c.tokens slot, t.InFrame slot s.frameSize) → Represents slot s.frameSize env fp stack →
    fp + s.frameSize ≤ sp → sp ≤ s.capacity →
    Follows s bound (m.placed addr sp fp stack) (c.eval s n env sp) fun yes m' =>
      ∃ stack', m' = m.placed (if yes then addr + c.size else target) sp fp stack' ∧
        ∀ j < sp, stack'.get j = stack.get j
  statement : ∀ (st : Statement) {bound}, Budget s bound (sizeOf st) n →
    Executed s slot m bound (st.code slot) (st.tokens slot) (st.exec s n)
  block : ∀ (bl : Block) {bound}, Budget s bound (sizeOf bl) n →
    Executed s slot m bound (bl.code slot) (bl.tokens slot) (bl.exec s n)
  call : ∀ {bound}, Budget s bound 0 n → ∀ ⦃arg ip next sp fp stack⦄,
    Machine.step (m.placed ip (sp + 1) fp stack) =
      execute (.call bodyAddr) next (m.placed ip (sp + 1) fp stack) →
    next < Word.sizeLimit → stack.get sp = arg → fp ≤ sp + 1 →
    Follows s bound (m.placed ip (sp + 1) fp stack) (s.call n arg (sp + 1))
      (Leaves m next sp fp stack)

namespace Budget

variable {s : Setting} {bound size n : Nat}

theorem eq_zero (h : Budget s bound size 0) : bound = 0 := by
  rcases h with h | h
  · exact h
  · have hmul : bound * (sizeOf s.program.body + 1) = 0 := by omega
    exact (Nat.mul_eq_zero.1 hmul).resolve_right (Nat.succ_ne_zero _)

theorem down (h : Budget s bound size (n + 1)) {size' : Nat} (hlt : size' < size) :
    Budget s bound size' n := by
  rcases h with h | h
  · exact .inl h
  · exact .inr (by omega)

theorem mono (h : Budget s bound size n) {size' : Nat} (hle : size' ≤ size) :
    Budget s bound size' n := by
  rcases h with h | h
  · exact .inl h
  · exact .inr (by omega)

/-- A step of the machine makes up for the body and more. -/
theorem step (h : Budget s bound size (n + 1)) :
    Budget s (bound - 1) (size + sizeOf s.program.body) n := by
  cases bound with
  | zero => exact .inl rfl
  | succ bound =>
    rcases h with h | h
    · cases h
    · rw [Nat.succ_mul] at h
      exact .inr (by rw [Nat.add_sub_cancel]; omega)

end Budget

theorem simulates_zero (s : Setting) (slot : String → Nat) (m : Machine) : Simulates s slot m 0 where
  expression e _ hbudget _ _ _ _ _ _ _ _ _ _ := by
    rw [hbudget.eq_zero, Expression.eval]
    exact .outOfFuel
  term t _ hbudget _ _ _ _ _ _ _ _ _ _ := by
    rw [hbudget.eq_zero, Term.eval]
    exact .outOfFuel
  factor f _ hbudget _ _ _ _ _ _ _ _ _ _ := by
    rw [hbudget.eq_zero, Factor.eval]
    exact .outOfFuel
  condition c _ hbudget _ _ _ _ _ _ _ _ _ _ _ := by
    rw [hbudget.eq_zero, Condition.eval]
    exact .outOfFuel
  statement st _ hbudget _ _ _ _ _ _ _ _ _ _ _ := by
    rw [hbudget.eq_zero, Statement.exec]
    exact .outOfFuel
  block bl _ hbudget _ _ _ _ _ _ _ _ _ _ _ := by
    rw [hbudget.eq_zero, Block.exec]
    exact .outOfFuel
  call hbudget _ _ _ _ _ _ _ _ _ _ := by
    rw [hbudget.eq_zero, Setting.call]
    exact .outOfFuel

section

variable {s : Setting} {slot : String → Nat} {b : Bytecode} {m : Machine} {n bound : Nat}

/-- Two operands, the left one first, are on the stack when what is done with them is followed. -/
theorem Valued.operands (h : Carries s slot b m) {code₁ code₂ : List Instruction}
    {ts₁ ts₂ : List Token} {eval₁ eval₂ : Env → Nat → Evaluation Word}
    (h₁ : Valued s slot m bound code₁ ts₁ eval₁) (h₂ : Valued s slot m bound code₂ ts₂ eval₂)
    {addr sp fp : Nat} {stack : Stack} {env : Env} (hsits : Sits (s.body slot) addr (code₁ ++ code₂))
    (hts₁ : ∀ t ∈ ts₁, t.InFrame slot s.frameSize) (hts₂ : ∀ t ∈ ts₂, t.InFrame slot s.frameSize)
    (hrep : Represents slot s.frameSize env fp stack) (hsp : fp + s.frameSize ≤ sp)
    (hroom : sp ≤ s.capacity) {β : Type} {f : Word → Word → Evaluation β} {R : β → Machine → Prop}
    (hf : ∀ x y stack', Carries.Operands stack stack' sp x y → sp + 2 ≤ m.capacity →
      Follows s bound (m.placed (addr + width code₁ + width code₂) (sp + 2) fp stack') (f x y) R) :
    Follows s bound (m.placed addr sp fp stack)
      (do let x ← eval₁ env sp; let y ← eval₂ env (sp + 1); f x y) R := by
  refine (h₁ hsits.left hts₁ hrep hsp hroom).bind ?_
  rintro x _ ⟨stack₁, rfl, hroom₁, hbelow₁, hx⟩
  rw [← h.capacity] at hroom₁
  have hrep₁ : Represents slot s.frameSize env fp stack₁ :=
    hrep.congr fun j hj => hbelow₁ j (by omega)
  refine (h₂ hsits.right hts₂ hrep₁ (by omega) hroom₁).bind ?_
  rintro y _ ⟨stack₂, rfl, hroom₂, hbelow₂, hy⟩
  refine hf x y stack₂ ⟨fun j hj => ?_, ?_, hy⟩ hroom₂
  · exact (hbelow₂ j (by omega)).trans (hbelow₁ j hj)
  · exact (hbelow₂ sp (Nat.lt_succ_self sp)).trans hx

namespace Simulates

theorem expression_succ (h : Carries s slot b m) (ih : Simulates s slot m n) (e : Expression)
    (hbudget : Budget s bound (sizeOf e) (n + 1)) :
    Valued s slot m bound (e.code slot) (e.tokens slot) (e.eval s (n + 1)) := by
  intro addr sp fp stack env hsits hts hrep hsp hroom
  cases e with
  | term t =>
    rw [Expression.eval]
    exact ih.term t (hbudget.down (by simp)) hsits hts hrep hsp hroom
  | sum e op t =>
    obtain ⟨hets, htts⟩ := List.forall_mem_append.1 hts
    have he := ih.expression e (hbudget.down (by simp only [Expression.sum.sizeOf_spec]; omega))
    have ht := ih.term t (hbudget.down (by simp only [Expression.sum.sizeOf_spec]; omega))
    rw [Expression.code] at hsits ⊢
    rw [Expression.eval, width_append, width_append, ← Nat.add_assoc, ← Nat.add_assoc]
    have hop := hsits.right
    rw [width_append, ← Nat.add_assoc] at hop
    refine he.operands h ht hsits.left hets (List.forall_mem_cons.1 htts).2 hrep hsp hroom ?_
    intro x y stack' hops hroom'
    have harith : Follows s bound (m.placed _ (sp + 2) fp stack') _ _ :=
      h.follows_arith hop hops hroom'
    rwa [op.apply_arith] at harith

theorem term_succ (h : Carries s slot b m) (ih : Simulates s slot m n) (t : Term)
    (hbudget : Budget s bound (sizeOf t) (n + 1)) :
    Valued s slot m bound (t.code slot) (t.tokens slot) (t.eval s (n + 1)) := by
  intro addr sp fp stack env hsits hts hrep hsp hroom
  cases t with
  | factor f =>
    rw [Term.eval]
    exact ih.factor f (hbudget.down (by simp)) hsits hts hrep hsp hroom
  | product f op t =>
    obtain ⟨hfts, htts⟩ := List.forall_mem_append.1 hts
    have hf := ih.factor f (hbudget.down (by simp only [Term.product.sizeOf_spec]; omega))
    have ht := ih.term t (hbudget.down (by simp only [Term.product.sizeOf_spec]; omega))
    rw [Term.code] at hsits ⊢
    rw [Term.eval, width_append, width_append, ← Nat.add_assoc, ← Nat.add_assoc]
    have hop := hsits.right
    rw [width_append, ← Nat.add_assoc] at hop
    refine hf.operands h ht hsits.left hfts (List.forall_mem_cons.1 htts).2 hrep hsp hroom ?_
    intro x y stack' hops hroom'
    rw [op.compute_eq]
    exact h.follows_arith hop hops hroom'

theorem factor_succ (h : Carries s slot b m) (ih : Simulates s slot m n) (f : Factor)
    (hbudget : Budget s bound (sizeOf f) (n + 1)) :
    Valued s slot m bound (f.code slot) (f.tokens slot) (f.eval s (n + 1)) := by
  intro addr sp fp stack env hsits hts hrep hsp hroom
  cases f with
  | number value =>
    rw [Factor.eval]
    exact h.follows_push (h.step hsits)
  | name x =>
    have hx : slot x < s.frameSize := hts _ (List.mem_singleton_self _) x rfl
    have hslot : fp + slot x < m.capacity := by
      rw [← h.capacity]
      omega
    rw [Factor.eval, ← hrep x hx]
    exact h.follows_push ((h.step hsits).trans (execute_load hslot))
  | group e =>
    rw [Factor.eval]
    exact ih.expression e (hbudget.down (by simp)) hsits
      (fun t ht => hts t (by simp [Factor.tokens, inParens, ht])) hrep hsp hroom
  | call f arg =>
    have harg := ih.expression arg (hbudget.down (by simp only [Factor.call.sizeOf_spec]; omega))
    have hargts : ∀ t ∈ arg.tokens slot, t.InFrame slot s.frameSize :=
      fun t ht => hts t (by simp [Factor.tokens, inParens, ht])
    have hcall : Budget s bound 0 n := hbudget.down (by simp only [Factor.call.sizeOf_spec]; omega)
    rw [Factor.code] at hsits ⊢
    rw [Factor.eval, width_append, ← Nat.add_assoc]
    refine (harg hsits.left hargts hrep hsp hroom).bind ?_
    rintro value _ ⟨stack', rfl, -, hbelow, hvalue⟩
    have hnext : _ < Word.sizeLimit := h.next_lt hsits.right (by simp)
    refine (ih.call hcall (h.step hsits.right) hnext hvalue (by omega)).finish ?_
    rintro result _ ⟨stack₁, rfl, hroom₁, hbelow₁, hresult⟩
    exact .pure ⟨stack₁, rfl, hroom₁, fun j hj => (hbelow₁ j hj).trans (hbelow j hj), hresult⟩

theorem condition_succ (h : Carries s slot b m) (ih : Simulates s slot m n) (c : Condition)
    (hbudget : Budget s bound (sizeOf c) (n + 1)) {addr target sp fp : Nat} {stack : Stack} {env : Env}
    (hsits : Sits (s.body slot) addr (c.code slot target))
    (hts : ∀ t ∈ c.tokens slot, t.InFrame slot s.frameSize)
    (hrep : Represents slot s.frameSize env fp stack) (hsp : fp + s.frameSize ≤ sp)
    (hroom : sp ≤ s.capacity) :
    Follows s bound (m.placed addr sp fp stack) (c.eval s (n + 1) env sp) fun yes m' =>
      ∃ stack', m' = m.placed (if yes then addr + c.size else target) sp fp stack' ∧
        ∀ j < sp, stack'.get j = stack.get j := by
  obtain ⟨left, relation, right⟩ := c
  have hleft := ih.expression left (hbudget.down (by simp only [Condition.mk.sizeOf_spec]; omega))
  have hright := ih.expression right (hbudget.down (by simp only [Condition.mk.sizeOf_spec]; omega))
  have hlts : ∀ t ∈ left.tokens slot, t.InFrame slot s.frameSize :=
    fun t ht => hts t (by simp [Condition.tokens, inParens, ht])
  have hrts : ∀ t ∈ right.tokens slot, t.InFrame slot s.frameSize :=
    fun t ht => hts t (by simp [Condition.tokens, inParens, ht])
  have hbranch := hsits.right
  rw [width_append, ← Nat.add_assoc] at hbranch
  rw [Condition.eval]
  refine hleft.operands h hright hsits.left hlts hrts hrep hsp hroom ?_
  intro x y stack' hops hroom'
  refine .step h.running (h.step_branch hbranch hops hroom') (.pure ⟨stack', ?_, hops.below⟩)
  rw [relation.holds_negated]
  cases relation.holds x y with
  | true =>
    rw [Condition.size, Expression.width_code, Expression.width_code]
    simp only [Bool.not_true, Bool.false_eq_true, if_false, if_true, Nat.add_assoc]
  | false => rfl

theorem assign_succ (h : Carries s slot b m) (ih : Simulates s slot m n) (x : String)
    (e : Expression) (hbudget : Budget s bound (sizeOf (Statement.assign x e)) (n + 1)) :
    Executed s slot m bound ((Statement.assign x e).code slot) ((Statement.assign x e).tokens slot)
      ((Statement.assign x e).exec s (n + 1)) := by
  intro addr fp next caller stack env hsits hts hrep hsaved hroom
  have he := ih.expression e (hbudget.down (by simp only [Statement.assign.sizeOf_spec]; omega))
  have hets : ∀ t ∈ e.tokens slot, t.InFrame slot s.frameSize :=
    fun t ht => hts t (by simp [Statement.tokens, ht])
  have hx : slot x < s.frameSize := hts _ List.mem_cons_self x rfl
  have hslot : fp + slot x < m.capacity := by
    rw [← h.capacity]
    omega
  rw [Statement.code] at hsits ⊢
  rw [Statement.exec, width_append, ← Nat.add_assoc]
  refine (he hsits.left hets hrep (Nat.le_refl _) hroom).bind ?_
  rintro value _ ⟨stack', rfl, hroom', hbelow, hvalue⟩
  refine .step h.running (h.step_store hsits.right hroom' hslot) (.pure ⟨_, rfl, ?_, ?_⟩)
  · intro j hj
    rw [Stack.get_set, if_neg (by omega)]
    exact hbelow j (by omega)
  · intro y hy
    change _ = if y = x then value else env y
    rw [Stack.get_set, hvalue]
    by_cases hyx : y = x
    · rw [if_pos (by rw [hyx]), if_pos hyx]
    · have hne : slot y ≠ slot x := fun heq => hyx (h.inj y x hy heq)
      rw [if_neg (by omega), if_neg hyx, hbelow _ (by omega)]
      exact hrep y hy

theorem ret_succ (h : Carries s slot b m) (ih : Simulates s slot m n) (e : Expression)
    (hbudget : Budget s bound (sizeOf (Statement.ret e)) (n + 1)) :
    Executed s slot m bound ((Statement.ret e).code slot) ((Statement.ret e).tokens slot)
      ((Statement.ret e).exec s (n + 1)) := by
  intro addr fp next caller stack env hsits hts hrep hsaved hroom
  have he := ih.expression e (hbudget.down (by simp only [Statement.ret.sizeOf_spec]; omega))
  have hets : ∀ t ∈ e.tokens slot, t.InFrame slot s.frameSize :=
    fun t ht => hts t (by simp [Statement.tokens, ht])
  rw [Statement.code] at hsits
  rw [Statement.exec]
  refine (he hsits.left hets hrep (Nat.le_refl _) hroom).bind ?_
  rintro value _ ⟨stack', rfl, hroom', hbelow, hvalue⟩
  have hsaved' : Saved stack' fp next caller := hsaved.congr fun j hj => hbelow j (by omega)
  refine .step h.running (h.step_ret hsits.right hsaved' (Nat.le_add_right _ _) hroom')
    (.pure ⟨_, rfl, ?_, ?_⟩)
  · intro j hj
    rw [Stack.get_set, if_neg (by omega)]
    exact hbelow j (by omega)
  · rw [Stack.get_set, if_pos rfl]
    exact hvalue

theorem ifElse_succ (h : Carries s slot b m) (ih : Simulates s slot m n) (c : Condition)
    (yes no : Statement) (hbudget : Budget s bound (sizeOf (Statement.ifElse c yes no)) (n + 1)) :
    Executed s slot m bound ((Statement.ifElse c yes no).code slot)
      ((Statement.ifElse c yes no).tokens slot) ((Statement.ifElse c yes no).exec s (n + 1)) := by
  intro addr fp next caller stack env hsits hts hrep hsaved hroom
  have hc := ih.condition c (hbudget.down (by simp only [Statement.ifElse.sizeOf_spec]; omega))
  have hyes := ih.statement yes (hbudget.down (by simp only [Statement.ifElse.sizeOf_spec]; omega))
  have hno := ih.statement no (hbudget.down (by simp only [Statement.ifElse.sizeOf_spec]; omega))
  have hcts : ∀ t ∈ c.tokens slot, t.InFrame slot s.frameSize :=
    fun t ht => hts t (by simp [Statement.tokens, ht])
  have hyts : ∀ t ∈ yes.tokens slot, t.InFrame slot s.frameSize :=
    fun t ht => hts t (by simp [Statement.tokens, ht])
  have hnts : ∀ t ∈ no.tokens slot, t.InFrame slot s.frameSize :=
    fun t ht => hts t (by simp [Statement.tokens, ht])
  rw [Statement.width_code, Statement.size, ← Nat.add_assoc, ← Nat.add_assoc, ← Nat.add_assoc]
  rw [Statement.code] at hsits
  have hyesAt := hsits.left.left.right
  have hgotoAt := hsits.left.right
  have hnoAt := hsits.right
  simp only [width_append, Condition.width_code, Statement.width_code, ← Nat.add_assoc]
    at hyesAt hgotoAt hnoAt
  rw [Statement.exec]
  refine (hc hsits.left.left.left hcts hrep (Nat.le_refl _) hroom).bind ?_
  rintro holds _ ⟨stack', rfl, hbelow⟩
  have hrep' := hrep.congr hbelow
  have hsaved' := hsaved.congr fun j hj => hbelow j (by omega)
  cases holds with
  | true =>
    refine (hyes hyesAt hyts hrep' hsaved' hroom).finish ?_
    intro flow m' hfinishes
    rw [Statement.width_code] at hfinishes
    have hfinishes := hfinishes.congr fun j hj => hbelow j (by omega)
    cases flow with
    | next env' =>
      -- the code of the other branch is jumped over
      obtain ⟨stack₁, rfl, hrest⟩ := hfinishes
      exact .step h.running (h.step_goto hgotoAt) (.pure ⟨stack₁, rfl, hrest⟩)
    | returned value => exact .pure hfinishes
  | false =>
    refine (hno hnoAt hnts hrep' hsaved' hroom).finish ?_
    intro flow m' hfinishes
    rw [Statement.width_code] at hfinishes
    exact .pure (hfinishes.congr fun j hj => hbelow j (by omega))

theorem whileDo_succ (h : Carries s slot b m) (ih : Simulates s slot m n) (c : Condition)
    (body : Statement) (hbudget : Budget s bound (sizeOf (Statement.whileDo c body)) (n + 1)) :
    Executed s slot m bound ((Statement.whileDo c body).code slot)
      ((Statement.whileDo c body).tokens slot) ((Statement.whileDo c body).exec s (n + 1)) := by
  intro addr fp next caller stack env hsits hts hrep hsaved hroom
  have hc := ih.condition c (hbudget.down (by simp only [Statement.whileDo.sizeOf_spec]; omega))
  have hbody := ih.statement body (hbudget.down (by simp only [Statement.whileDo.sizeOf_spec]; omega))
  -- the step back to the condition pays for the next turn
  have hagain := ih.statement (.whileDo c body) (hbudget.step.mono (Nat.le_add_right _ _))
  have hcts : ∀ t ∈ c.tokens slot, t.InFrame slot s.frameSize :=
    fun t ht => hts t (by simp [Statement.tokens, ht])
  have hbts : ∀ t ∈ body.tokens slot, t.InFrame slot s.frameSize :=
    fun t ht => hts t (by simp [Statement.tokens, ht])
  have hcode := hsits
  rw [Statement.code] at hcode
  have hbodyAt := hcode.left.right
  have hgotoAt := hcode.right
  simp only [width_append, Condition.width_code, Statement.width_code, ← Nat.add_assoc]
    at hbodyAt hgotoAt
  rw [Statement.exec]
  refine (hc hcode.left.left hcts hrep (Nat.le_refl _) hroom).bind ?_
  rintro holds _ ⟨stack', rfl, hbelow⟩
  have hrep' := hrep.congr hbelow
  have hsaved' := hsaved.congr fun j hj => hbelow j (by omega)
  cases holds with
  | true =>
    refine (hbody hbodyAt hbts hrep' hsaved' hroom).bind ?_
    intro flow m' hfinishes
    rw [Statement.width_code] at hfinishes
    have hfinishes := hfinishes.congr fun j hj => hbelow j (by omega)
    cases flow with
    | next env' =>
      obtain ⟨stack₁, rfl, hbelow₁, hrep₁⟩ := hfinishes
      refine .step h.running (h.step_goto hgotoAt) ?_
      refine (hagain hsits hts hrep₁ (hsaved.congr hbelow₁) hroom).finish ?_
      intro flow m' hfinishes
      exact .pure (hfinishes.congr hbelow₁)
    | returned value => exact .pure hfinishes
  | false =>
    rw [Statement.width_code, Statement.size, ← Nat.add_assoc, ← Nat.add_assoc]
    exact .pure ⟨stack', rfl, fun j hj => hbelow j (by omega), hrep'⟩

theorem statement_succ (h : Carries s slot b m) (ih : Simulates s slot m n) (st : Statement)
    (hbudget : Budget s bound (sizeOf st) (n + 1)) :
    Executed s slot m bound (st.code slot) (st.tokens slot) (st.exec s (n + 1)) := by
  cases st with
  | assign x e => exact ih.assign_succ h x e hbudget
  | ifElse c yes no => exact ih.ifElse_succ h c yes no hbudget
  | whileDo c body => exact ih.whileDo_succ h c body hbudget
  | ret e => exact ih.ret_succ h e hbudget
  | block bl =>
    intro addr fp next caller stack env hsits hts hrep hsaved hroom
    rw [Statement.exec]
    exact ih.block bl (hbudget.down (by simp)) hsits
      (fun t ht => hts t (by simp [Statement.tokens, inBraces, ht])) hrep hsaved hroom
  | skip =>
    intro addr fp next caller stack env _ _ hrep _ _
    rw [Statement.exec]
    exact .pure ⟨stack, rfl, fun _ _ => rfl, hrep⟩

theorem block_succ (ih : Simulates s slot m n) (bl : Block)
    (hbudget : Budget s bound (sizeOf bl) (n + 1)) :
    Executed s slot m bound (bl.code slot) (bl.tokens slot) (bl.exec s (n + 1)) := by
  intro addr fp next caller stack env hsits hts hrep hsaved hroom
  cases bl with
  | nil =>
    rw [Block.exec]
    exact .pure ⟨stack, rfl, fun _ _ => rfl, hrep⟩
  | cons st bl =>
    obtain ⟨hsts, hbts⟩ := List.forall_mem_append.1 hts
    have hst := ih.statement st (hbudget.down (by simp only [Block.cons.sizeOf_spec]; omega))
    have hbl := ih.block bl (hbudget.down (by simp only [Block.cons.sizeOf_spec]; omega))
    rw [Block.code] at hsits ⊢
    have hrest := hsits.right
    rw [Statement.width_code] at hrest
    rw [Block.exec, width_append, Statement.width_code, ← Nat.add_assoc]
    refine (hst hsits.left hsts hrep hsaved hroom).bind ?_
    intro flow m' hfinishes
    rw [Statement.width_code] at hfinishes
    cases flow with
    | next env' =>
      obtain ⟨stack', rfl, hbelow, hrep'⟩ := hfinishes
      refine (hbl hrest hbts hrep' (hsaved.congr hbelow) hroom).finish ?_
      intro flow m' hfinishes
      exact .pure (hfinishes.congr hbelow)
    | returned value => exact .pure hfinishes

theorem call_succ (h : Carries s slot b m) (ih : Simulates s slot m n)
    (hbudget : Budget s bound 0 (n + 1)) {arg : Word} {ip next sp fp : Nat} {stack : Stack}
    (hstep : Machine.step (m.placed ip (sp + 1) fp stack) =
      execute (.call bodyAddr) next (m.placed ip (sp + 1) fp stack))
    (hnext : next < Word.sizeLimit) (harg : stack.get sp = arg) (hfp : fp ≤ sp + 1) :
    Follows s bound (m.placed ip (sp + 1) fp stack) (s.call (n + 1) arg (sp + 1))
      (Leaves m next sp fp stack) := by
  have hbody := ih.block s.program.body (hbudget.step.mono (Nat.le_add_left _ _))
  have hcall := h.step_call hstep hnext hfp
  rw [Setting.call]
  by_cases hroom : sp + 1 + 2 + s.frameSize ≤ s.capacity
  · have hfp_lt : fp < Word.sizeLimit := by
      have hcapacity := h.holds.capacity
      rw [← h.capacity] at hcapacity
      omega
    have hroom' : sp + 1 ≤ m.capacity := by
      rw [← h.capacity]
      omega
    rw [Setting.occupy, if_pos hroom]
    refine .step h.running (hcall.trans (if_pos hroom)) ?_
    refine (hbody ⟨[], [.nop], rfl, rfl⟩ h.names (harg ▸ h.represents_enter _ _)
      (Carries.saved_enter hnext hfp_lt) hroom).bind ?_
    intro flow m' hfinishes
    cases flow with
    | next env =>
      obtain ⟨stack', rfl, -⟩ := hfinishes
      exact h.follows_noReturn
    | returned value =>
      obtain ⟨stack', rfl, hbelow, hvalue⟩ := hfinishes
      refine .pure ⟨stack', rfl, hroom', fun j hj => ?_, hvalue⟩
      exact (hbelow j hj).trans (stack.get_enter_below _ _ (Nat.lt_succ_of_lt hj))
  · rw [Setting.occupy, if_neg hroom]
    exact .throw h.running (hcall.trans (if_neg hroom)) rfl

theorem succ (h : Carries s slot b m) (ih : Simulates s slot m n) : Simulates s slot m (n + 1) where
  expression e _ hbudget := ih.expression_succ h e hbudget
  term t _ hbudget := ih.term_succ h t hbudget
  factor f _ hbudget := ih.factor_succ h f hbudget
  condition c _ hbudget _ _ _ _ _ _ := ih.condition_succ h c hbudget
  statement st _ hbudget := ih.statement_succ h st hbudget
  block bl _ hbudget := ih.block_succ bl hbudget
  call hbudget _ _ _ _ _ _ := ih.call_succ h hbudget

end Simulates

theorem Carries.simulates (h : Carries s slot b m) (n : Nat) : Simulates s slot m n := by
  induction n with
  | zero => exact simulates_zero s slot m
  | succ n ih => exact ih.succ h

end

end Solo
