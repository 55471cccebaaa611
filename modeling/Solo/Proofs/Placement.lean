import Solo.Proofs.Following
import Solo.Proofs.Stepping
import Solo.Proofs.WellFormed

/-! How a machine that runs the code of a function relates to an evaluation: where in the code it is,
how its stack holds the variables and the pending operands, and what each instruction does to that. -/

namespace Solo

open Bytecode (bodyAddr)
open Machine Grammar

/-- The code of the function. -/
def Grammar.Setting.body (s : Setting) (slot : String → Nat) : List Instruction :=
  s.program.body.code slot bodyAddr ++ [.nop]

/-- `m` can run the code of the function of `s`. -/
structure Carries (s : Setting) (slot : String → Nat) (b : Bytecode) (m : Machine) : Prop where
  holds : m.Holds b
  running : m.halted = false
  wellFormed : b.WellFormed (s.body slot)
  frameSize : s.frameSize = b.frameSize
  capacity : s.capacity = m.capacity
  param : b.paramSlot = slot s.program.param
  inj : ∀ x y, slot x < s.frameSize → slot x = slot y → x = y
  names : ∀ t ∈ s.program.body.tokens slot, t.InFrame slot s.frameSize

def Machine.placed (m : Machine) (ip sp fp : Nat) (stack : Stack) : Machine :=
  { m with ip, sp, fp, stack }

/-- In the body `part` stands at `addr`. -/
def Sits (body : List Instruction) (addr : Nat) (part : List Instruction) : Prop :=
  ∃ pre post, body = pre ++ part ++ post ∧ addr = bodyAddr + width pre

section

variable {body is js : List Instruction} {addr : Nat}

theorem Sits.left (h : Sits body addr (is ++ js)) : Sits body addr is := by
  obtain ⟨pre, post, hbody, haddr⟩ := h
  exact ⟨pre, js ++ post, by rw [hbody]; simp, haddr⟩

theorem Sits.right (h : Sits body addr (is ++ js)) : Sits body (addr + width is) js := by
  obtain ⟨pre, post, hbody, haddr⟩ := h
  exact ⟨pre ++ is, post, by rw [hbody]; simp, by rw [haddr, width_append, Nat.add_assoc]⟩

end

/-- The frame at `fp` holds the variables. -/
def Represents (slot : String → Nat) (frameSize : Nat) (env : Env) (fp : Nat) (stack : Stack) : Prop :=
  ∀ x, slot x < frameSize → stack.get (fp + slot x) = env x

theorem Represents.congr {slot : String → Nat} {frameSize fp : Nat} {env : Env} {stack stack' : Stack}
    (h : Represents slot frameSize env fp stack)
    (hsame : ∀ j < fp + frameSize, stack'.get j = stack.get j) :
    Represents slot frameSize env fp stack' := by
  intro x hx
  rw [hsame _ (by omega)]
  exact h x hx

/-- The value has been put on top of `sp` words. -/
def Leaves (m : Machine) (ip sp fp : Nat) (stack : Stack) (value : Word) (m' : Machine) : Prop :=
  ∃ stack', m' = m.placed ip (sp + 1) fp stack' ∧ sp + 1 ≤ m.capacity ∧
    (∀ j < sp, stack'.get j = stack.get j) ∧ stack'.get sp = value

/-- In the frame at `fp` it is saved where to go back to. -/
structure Saved (stack : Stack) (fp next caller : Nat) : Prop where
  three_le : 3 ≤ fp
  next_eq : stack.get (fp - 2) = .ofSize next
  caller_eq : stack.get (fp - 1) = .ofSize caller
  next_lt : next < Word.sizeLimit
  caller_lt : caller < Word.sizeLimit

/-- A statement that goes on has left the variables in the frame; one that returns has left its value
in the place of the argument. -/
def Finishes (slot : String → Nat) (frameSize : Nat) (m : Machine) (ip fp next caller : Nat)
    (stack : Stack) : Flow → Machine → Prop
  | .next env, m' => ∃ stack', m' = m.placed ip (fp + frameSize) fp stack' ∧
      (∀ j < fp, stack'.get j = stack.get j) ∧ Represents slot frameSize env fp stack'
  | .returned value, m' => ∃ stack', m' = m.placed next (fp - 2) caller stack' ∧
      (∀ j < fp - 3, stack'.get j = stack.get j) ∧ stack'.get (fp - 3) = value

theorem Saved.congr {stack stack' : Stack} {fp next caller : Nat} (h : Saved stack fp next caller)
    (hsame : ∀ j < fp, stack'.get j = stack.get j) : Saved stack' fp next caller := by
  have hfp := h.three_le
  refine ⟨hfp, ?_, ?_, h.next_lt, h.caller_lt⟩
  · rw [hsame _ (by omega)]
    exact h.next_eq
  · rw [hsame _ (by omega)]
    exact h.caller_eq

theorem Finishes.congr {slot : String → Nat} {frameSize ip fp next caller : Nat} {m m' : Machine}
    {stack stack' : Stack} {flow : Flow}
    (h : Finishes slot frameSize m ip fp next caller stack' flow m')
    (hsame : ∀ j < fp, stack'.get j = stack.get j) :
    Finishes slot frameSize m ip fp next caller stack flow m' := by
  cases flow with
  | next env =>
    obtain ⟨stack₁, hm, hbelow, hrep⟩ := h
    exact ⟨stack₁, hm, fun j hj => (hbelow j hj).trans (hsame j hj), hrep⟩
  | returned value =>
    obtain ⟨stack₁, hm, hbelow, hvalue⟩ := h
    exact ⟨stack₁, hm, fun j hj => (hbelow j hj).trans (hsame j (by omega)), hvalue⟩

namespace Grammar

/-- The words of the machine wrap as integers that are cut do. -/
theorem SumOp.apply_arith (op : SumOp) (x y : Word) :
    op.arith.apply x y = some (op.compute x y) := by
  cases op with
  | add => rw [compute, Int32.ofInt_add, Int32.ofInt_toInt, Int32.ofInt_toInt]; rfl
  | sub => rw [compute, Int32.ofInt_sub, Int32.ofInt_toInt, Int32.ofInt_toInt]; rfl

theorem ProductOp.compute_eq (op : ProductOp) (x y : Word) :
    op.compute x y = match op.arith.apply x y with
      | some r => pure r
      | none => throw .divisionByZero := by
  cases op with
  | mul => rw [compute, Int32.ofInt_mul, Int32.ofInt_toInt, Int32.ofInt_toInt]; rfl
  | div =>
    have hdiv : Int32.ofInt (x.toInt.tdiv y.toInt) = x / y := by
      rw [Int32.ofInt_tdiv x.minValue_le_toInt x.toInt_le y.minValue_le_toInt y.toInt_le,
        Int32.ofInt_toInt, Int32.ofInt_toInt]
    rw [compute, hdiv, arith, Arith.apply]
    split <;> rfl

/-- The branch is taken when the condition is false. -/
theorem Relation.holds_negated (r : Relation) (x y : Word) :
    r.negated.holds x y = !r.holds x y := by
  cases r with
  | eq => exact decide_not
  | ne => simp [negated, holds, Comparison.holds]
  | greater => rw [negated, holds, Comparison.holds, ← decide_not, decide_eq_decide, Int32.not_lt]
  | less => rw [negated, holds, Comparison.holds, ← decide_not, decide_eq_decide, Int32.not_lt]

end Grammar

namespace Carries

variable {s : Setting} {slot : String → Nat} {b : Bytecode} {m : Machine} {ip sp fp : Nat}
  {stack : Stack}

theorem step (h : Carries s slot b m) {i : Instruction} {is : List Instruction}
    (hi : Sits (s.body slot) ip (i :: is)) :
    Machine.step (m.placed ip sp fp stack) = execute i (ip + i.width) (m.placed ip sp fp stack) := by
  obtain ⟨pre, post, hbody, hip⟩ := hi
  have hsplit : s.body slot = pre ++ i :: (is ++ post) := by rw [hbody]; simp
  exact step_of_fetch (h.wellFormed.fetch (m := m.placed ip sp fp stack) h.holds.code hsplit hip)

theorem next_lt (h : Carries s slot b m) {i : Instruction} {is : List Instruction}
    (hi : Sits (s.body slot) ip (i :: is)) (hnop : i ≠ .nop) : ip + i.width < Word.sizeLimit := by
  obtain ⟨pre, post, hbody, hip⟩ := hi
  have hsplit : s.body slot = pre ++ i :: (is ++ post) := by rw [hbody]; simp
  rw [hip]
  exact h.wellFormed.next_lt hsplit hnop

/-- A word is put on the stack, or there is no room for it. -/
theorem follows_push (h : Carries s slot b m) {bound next : Nat} {w : Word}
    (hstep : Machine.step (m.placed ip sp fp stack) =
      execute (.push w) next (m.placed ip sp fp stack)) :
    Follows s bound (m.placed ip sp fp stack) (do s.occupy (sp + 1); return w)
      (Leaves m next sp fp stack) := by
  rw [execute_push] at hstep
  by_cases hroom : sp + 1 ≤ s.capacity
  · have hvalue : (do s.occupy (sp + 1); return w : Evaluation Word) = pure w := by
      rw [Setting.occupy, if_pos hroom]
      rfl
    rw [h.capacity] at hroom
    rw [hvalue]
    refine .step h.running (hstep.trans (if_pos hroom)) (.pure ⟨_, rfl, hroom, fun j hj => ?_, ?_⟩)
    · exact (Stack.get_set _ _ _ _).trans (if_neg (Nat.ne_of_lt hj))
    · exact (Stack.get_set _ _ _ _).trans (if_pos rfl)
  · have habort : (do s.occupy (sp + 1); return w : Evaluation Word) = throw .stackOverflow := by
      rw [Setting.occupy, if_neg hroom]
      rfl
    rw [h.capacity] at hroom
    rw [habort]
    exact .throw h.running (hstep.trans (if_neg hroom)) (congrArg _ h.capacity.symm)

/-- The operands `x` and `y` lie above `sp` words. -/
structure Operands (stack stack' : Stack) (sp : Nat) (x y : Word) : Prop where
  below : ∀ j < sp, stack'.get j = stack.get j
  first : stack'.get sp = x
  second : stack'.get (sp + 1) = y

theorem follows_arith (h : Carries s slot b m) {bound : Nat} {op : Arith} {is : List Instruction}
    (hi : Sits (s.body slot) ip (.arith op :: is)) {stack' : Stack} {x y : Word}
    (hops : Operands stack stack' sp x y) (hroom : sp + 2 ≤ m.capacity) :
    Follows s bound (m.placed ip (sp + 2) fp stack')
      (match op.apply x y with | some r => pure r | none => throw .divisionByZero)
      (Leaves m (ip + 1) sp fp stack) := by
  have hstep : Machine.step (m.placed ip (sp + 2) fp stack') =
    execute (.arith op) (ip + 1) (m.placed ip (sp + 2) fp stack') := h.step hi
  rw [execute_arith (Nat.le_add_left 2 sp) hroom] at hstep
  have hx : stack'.get (sp + 2 - 2) = x := hops.first
  have hy : stack'.get (sp + 2 - 1) = y := hops.second
  change _ = (match op.apply (stack'.get (sp + 2 - 2)) (stack'.get (sp + 2 - 1)) with
    | some r => _
    | none => _) at hstep
  rw [hx, hy] at hstep
  cases hr : op.apply x y with
  | some r =>
    rw [hr] at hstep
    refine .step h.running hstep (.pure ⟨_, rfl, by omega, fun j hj => ?_, ?_⟩)
    · exact ((Stack.get_set _ _ _ _).trans (if_neg (Nat.ne_of_lt hj))).trans (hops.below j hj)
    · exact (Stack.get_set _ _ _ _).trans (if_pos rfl)
  | none =>
    rw [hr] at hstep
    exact .throw h.running hstep rfl

theorem step_branch (h : Carries s slot b m) {test : Comparison} {target : Nat}
    {is : List Instruction} (hi : Sits (s.body slot) ip (.branch test target :: is)) {stack' : Stack}
    {x y : Word} (hops : Operands stack stack' sp x y) (hroom : sp + 2 ≤ m.capacity) :
    Machine.step (m.placed ip (sp + 2) fp stack') =
      .ok () (m.placed (if test.holds x y then target else ip + 2) sp fp stack') := by
  have hstep : Machine.step (m.placed ip (sp + 2) fp stack') =
    execute (.branch test target) (ip + 2) (m.placed ip (sp + 2) fp stack') := h.step hi
  rw [hstep, execute_branch (Nat.le_add_left 2 sp) hroom, ← hops.first, ← hops.second]
  rfl

theorem step_store (h : Carries s slot b m) {k : Nat} {is : List Instruction}
    (hi : Sits (s.body slot) ip (.store k :: is)) (hroom : sp + 1 ≤ m.capacity)
    (hk : fp + k < m.capacity) : Machine.step (m.placed ip (sp + 1) fp stack) =
      .ok () (m.placed (ip + 2) sp fp (stack.set (fp + k) (stack.get sp))) := by
  have hstep : Machine.step (m.placed ip (sp + 1) fp stack) =
    execute (.store k) (ip + 2) (m.placed ip (sp + 1) fp stack) := h.step hi
  rw [hstep, execute_store (Nat.succ_pos sp) hroom hk]
  rfl

theorem step_goto (h : Carries s slot b m) {target : Nat} {is : List Instruction}
    (hi : Sits (s.body slot) ip (.goto target :: is)) :
    Machine.step (m.placed ip sp fp stack) = .ok () (m.placed target sp fp stack) :=
  h.step hi

theorem step_ret (h : Carries s slot b m) {next caller : Nat} {is : List Instruction}
    (hi : Sits (s.body slot) ip (.ret :: is)) (hsaved : Saved stack fp next caller) (hfp : fp ≤ sp)
    (hroom : sp + 1 ≤ m.capacity) : Machine.step (m.placed ip (sp + 1) fp stack) =
      .ok () (m.placed next (fp - 2) caller (stack.set (fp - 3) (stack.get sp))) := by
  have hstep : Machine.step (m.placed ip (sp + 1) fp stack) =
    execute .ret (ip + 1) (m.placed ip (sp + 1) fp stack) := h.step hi
  rw [hstep, execute_ret (m := m.placed ip (sp + 1) fp stack) hsaved.three_le
    (Nat.le_succ_of_le hfp) hroom hsaved.next_lt hsaved.caller_lt hsaved.next_eq hsaved.caller_eq]
  rfl

/-- A call lays a frame, or there is no room for one. -/
theorem step_call (h : Carries s slot b m) {next : Nat}
    (hstep : Machine.step (m.placed ip (sp + 1) fp stack) =
      execute (.call bodyAddr) next (m.placed ip (sp + 1) fp stack))
    (hnext : next < Word.sizeLimit) (hfp : fp ≤ sp + 1) :
    Machine.step (m.placed ip (sp + 1) fp stack) =
      if sp + 1 + 2 + s.frameSize ≤ s.capacity then
        .ok () (m.placed bodyAddr (sp + 3 + s.frameSize) (sp + 3)
          (stack.enter (sp + 1) (.ofSize next) (.ofSize fp) s.frameSize (slot s.program.param)))
      else .error ⟨ip, .stackOverflow s.capacity⟩ (m.placed ip (sp + 1) fp stack) := by
  have hparam : m.paramSlot < m.frameSize := by
    rw [h.holds.paramSlot, h.holds.frameSize]
    exact h.wellFormed.param
  rw [hstep, execute_call (m := m.placed ip (sp + 1) fp stack) (Nat.succ_pos sp) h.holds.capacity
    hnext hfp hparam, ← h.param, ← h.holds.paramSlot, h.frameSize, ← h.holds.frameSize, h.capacity]
  rfl

theorem represents_enter (h : Carries s slot b m) (next caller : Word) :
    Represents slot s.frameSize (s.program.entry (stack.get sp)) (sp + 3)
      (stack.enter (sp + 1) next caller s.frameSize (slot s.program.param)) := by
  intro x hx
  change _ = if x = s.program.param then stack.get sp else 0
  refine (stack.get_enter_slot next caller hx).trans ?_
  by_cases hxp : x = s.program.param
  · rw [if_pos (by rw [hxp]), if_pos hxp]
    rfl
  · rw [if_neg (fun heq => hxp (h.inj x _ hx heq)), if_neg hxp]

theorem saved_enter {next : Nat} (hnext : next < Word.sizeLimit) (hfp : fp < Word.sizeLimit)
    {frameSize param : Nat} :
    Saved (stack.enter (sp + 1) (.ofSize next) (.ofSize fp) frameSize param) (sp + 3) next fp :=
  ⟨Nat.le_add_left 3 sp, stack.get_enter_next _ _, stack.get_enter_caller _ _, hnext, hfp⟩

/-- At the end of the body there is an instruction that does nothing, and then no more. -/
theorem follows_noReturn (h : Carries s slot b m) {α : Type} {bound : Nat} {Q : α → Machine → Prop} :
    Follows s bound
      (m.placed (bodyAddr + width (s.program.body.code slot bodyAddr)) sp fp stack)
      (throw .noReturn) Q := by
  have hnop : Sits (s.body slot) (bodyAddr + width (s.program.body.code slot bodyAddr)) [.nop] :=
    ⟨_, [], (List.append_nil _).symm, rfl⟩
  have hend : bodyAddr + width (s.program.body.code slot bodyAddr) + 1 = b.wordCount := by
    rw [h.wellFormed.wordCount_eq, Setting.body, width_append]
    rfl
  have hfault : Machine.step (m.placed b.wordCount sp fp stack) =
      .error ⟨b.wordCount, .illegal .noReturn⟩ (m.placed b.wordCount sp fp stack) := by
    rw [Machine.step, fetch_end (m := m.placed b.wordCount sp fp stack) h.holds.code rfl]
    rfl
  rw [← hend] at hfault
  exact .step h.running (h.step hnop) (.throw h.running hfault rfl)

end Carries

end Solo
