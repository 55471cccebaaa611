import Solo.Grammar.Meaning
import Solo.Machine.Run

/-! A machine that follows an evaluation. `Follows` says what steps do for each way in which an
evaluation can end: for a value they lead to a machine that shows it, for an abort to a fault with the
same cause, and for an evaluation that runs out of fuel they go on for as long as is asked. -/

namespace Solo

open Machine Grammar

namespace Machine

/-- From `m` to `m'` in `n` steps, none of them after a halt. -/
inductive Steps : Nat → Machine → Machine → Prop where
  | refl (m : Machine) : Steps 0 m m
  | step {n : Nat} {m m₁ m' : Machine} (hrunning : m.halted = false) (hstep : step m = .ok () m₁)
      (rest : Steps n m₁ m') : Steps (n + 1) m m'

theorem Steps.trans {j k : Nat} {m m₁ m' : Machine} (h : Steps j m m₁) (h' : Steps k m₁ m') :
    Steps (j + k) m m' := by
  induction h with
  | refl => rwa [Nat.zero_add]
  | step hrunning hstep _ ih =>
    rw [Nat.add_right_comm]
    exact .step hrunning hstep (ih h')

theorem runFor_succ {m : Machine} (hrunning : m.halted = false) (n : Nat) :
    runFor (n + 1) m = match step m with
      | .ok _ m => runFor n m
      | .error f m => .error f m := by
  change (if m.halted = true then _ else _) = _
  rw [hrunning]
  rfl

theorem Steps.runFor_add {n : Nat} {m m' : Machine} (h : Steps n m m') (k : Nat) :
    runFor (n + k) m = runFor k m' := by
  induction h with
  | refl => rw [Nat.zero_add]
  | step hrunning hstep _ ih =>
    rw [Nat.add_right_comm, runFor_succ hrunning, hstep]
    exact ih

/-- A machine that can take more steps than it is given does not halt within them. -/
theorem Steps.runFor_lt {n : Nat} {m m' : Machine} (h : Steps n m m') :
    ∀ {k}, k < n → ∃ m₁, runFor k m = .ok false m₁ := by
  induction h with
  | refl =>
    intro k hk
    exact absurd hk (Nat.not_lt_zero k)
  | @step n m m₁ m' hrunning hstep _ ih =>
    intro k hk
    cases k with
    | zero => exact ⟨m, congrArg (EStateM.Result.ok · m) hrunning⟩
    | succ k =>
      rw [runFor_succ hrunning, hstep]
      exact ih (Nat.lt_of_succ_lt_succ hk)

/-- A run that has ended is not changed by more steps. -/
theorem runFor_mono {n k : Nat} (hle : n ≤ k) : ∀ {m : Machine},
    (∀ m', runFor n m ≠ .ok false m') → runFor k m = runFor n m := by
  induction n generalizing k with
  | zero =>
    intro m h
    have hhalted : m.halted = true := by
      cases hm : m.halted with
      | true => rfl
      | false => exact absurd (congrArg (EStateM.Result.ok · m) hm) (h m)
    cases k with
    | zero => rfl
    | succ k => exact (if_pos hhalted).trans (congrArg (EStateM.Result.ok · m) hhalted.symm)
  | succ n ih =>
    intro m h
    cases k with
    | zero => exact absurd hle (Nat.not_succ_le_zero n)
    | succ k =>
      cases hm : m.halted with
      | true => exact (if_pos hm).trans (if_pos hm).symm
      | false =>
        rw [runFor_succ hm] at h
        rw [runFor_succ hm, runFor_succ hm]
        cases hstep : step m with
        | ok _ m₁ =>
          rw [hstep] at h
          exact ih (Nat.le_of_succ_le_succ hle) h
        | error fault m₁ => rfl

end Machine

/-- The cause of the fault at which the machine stops when evaluation aborts. -/
def Grammar.Abort.cause (capacity : Nat) : Abort → Fault.Cause
  | .divisionByZero => .divisionByZero
  | .noReturn => .illegal .noReturn
  | .stackOverflow => .stackOverflow capacity

/-- The steps of `m` follow the evaluation. A value leads to a machine for which `Q` holds, and if
there is no result, `m` goes on for at least `bound` steps. -/
def Follows {α : Type} (s : Setting) (bound : Nat) (m : Machine) (r : Evaluation α)
    (Q : α → Machine → Prop) : Prop :=
  match (r : Option (Except Abort α)) with
  | some (.ok a) => ∃ k m', Steps k m m' ∧ Q a m'
  | some (.error a) => ∃ k m', Steps k m m' ∧ m'.halted = false ∧
      ∃ fault m'', step m' = .error fault m'' ∧ fault.cause = a.cause s.capacity
  | none => ∃ k m', bound ≤ k ∧ Steps k m m'

namespace Follows

variable {α β : Type} {s : Setting} {bound : Nat} {m m₁ : Machine} {r : Evaluation α}
  {f : α → Evaluation β} {Q : α → Machine → Prop} {R : β → Machine → Prop}

theorem pure {a : α} (h : Q a m) : Follows s bound m (pure a) Q := ⟨0, m, .refl m, h⟩

theorem throw {a : Abort} {fault : Fault} {m' : Machine} (hrunning : m.halted = false)
    (h : Machine.step m = .error fault m') (hcause : fault.cause = a.cause s.capacity) :
    Follows s bound m (throw a : Evaluation α) Q :=
  ⟨0, m, .refl m, hrunning, fault, m', h, hcause⟩

/-- Without fuel there is nothing to follow. -/
theorem outOfFuel : Follows s 0 m (outOfFuel : Evaluation α) Q := ⟨0, m, Nat.le_refl 0, .refl m⟩

theorem steps {k : Nat} (h : Steps k m m₁) (hr : Follows s (bound - k) m₁ r Q) :
    Follows s bound m r Q := by
  unfold Follows at hr ⊢
  split at hr
  · obtain ⟨j, m', hj, hQ⟩ := hr
    exact ⟨k + j, m', h.trans hj, hQ⟩
  · obtain ⟨j, m', hj, hfault⟩ := hr
    exact ⟨k + j, m', h.trans hj, hfault⟩
  · obtain ⟨j, m', hbound, hj⟩ := hr
    exact ⟨k + j, m', by omega, h.trans hj⟩

/-- One step that the evaluation does not see. -/
theorem step (hrunning : m.halted = false) (h : Machine.step m = .ok () m₁)
    (hr : Follows s (bound - 1) m₁ r Q) : Follows s bound m r Q :=
  steps (.step hrunning h (.refl m₁)) hr

theorem lower {bound' : Nat} (h : Follows s bound m r Q) (hle : bound' ≤ bound) :
    Follows s bound' m r Q := by
  unfold Follows at h ⊢
  split at h
  · exact h
  · exact h
  · obtain ⟨k, m', hk, hsteps⟩ := h
    exact ⟨k, m', Nat.le_trans hle hk, hsteps⟩

theorem bind (h : Follows s bound m r Q) (hf : ∀ a m', Q a m' → Follows s bound m' (f a) R) :
    Follows s bound m (r >>= f) R := by
  match r, h with
  | some (.ok a), ⟨k, m', hk, hQ⟩ => exact ((hf a m' hQ).lower (Nat.sub_le bound k)).steps hk
  | some (.error a), h => exact h
  | none, h => exact h

/-- Steps at the end that the evaluation does not see. -/
theorem finish {R : α → Machine → Prop} (h : Follows s bound m r Q)
    (hf : ∀ a m', Q a m' → Follows s bound m' (Pure.pure a) R) : Follows s bound m r R := by
  rw [← bind_pure r]
  exact h.bind hf

end Follows

end Solo
