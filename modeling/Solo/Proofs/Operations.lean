import Solo.Proofs.Bounds

/-! What can be done to a machine from outside: it can be made ready, run, stepped, and its halt can be
set, in any order, and also after a run or a step has failed. However a machine has come about in this
way, its registers are in bounds. -/

namespace Solo

open Machine

inductive Operation where
  | reset (arg : Word)
  /-- A run that is broken off if it has not ended after `bound` steps. -/
  | run (bound : Nat) (arg : Word)
  | step
  | setHalted (halted : Bool)

namespace Operation

def action : Operation → Action Unit
  | .reset arg => Machine.reset arg
  | .run bound arg => discard (Machine.run bound arg)
  | .step => Machine.step
  | .setHalted halted => modify fun m => { m with halted }

/-- The operation with its sums and differences checked. -/
def sized : Operation → Sized Unit
  | .reset arg => Sized.reset arg
  | .run bound arg => discard (Sized.run bound arg)
  | .step => Sized.step
  | .setHalted halted => modify fun m => { m with halted }

/-- The machine after the operations, each done to what the one before has left. -/
def after (os : List Operation) (m : Machine) : Machine := (perform (os.map action) m).2

end Operation

namespace Machine

variable {m₀ m : Machine}

theorem Safe.operation (h : Within m₀ m) (o : Operation) : Safe m₀ o.sized o.action m := by
  cases o with
  | reset arg => exact .reset h arg
  | run bound arg => exact (Safe.run h bound arg).bind fun _ m₁ _ h₁ => ⟨h₁, fun _ => rfl⟩
  | step => exact .step h
  | setHalted halted => exact .modifying rfl { h with }

theorem Within.after (h : Within m₀ m) (os : List Operation) : Within m₀ (Operation.after os m) := by
  induction os generalizing m with
  | nil => exact h
  | cons o os ih =>
    have hnext := ih (Safe.operation h o).within
    unfold Operation.after at hnext ⊢
    rw [List.map_cons]
    cases ho : o.action m with
    | ok _ m₁ =>
      rw [ho] at hnext
      rw [perform_ok ho]
      exact hnext
    | error f m₁ =>
      rw [ho] at hnext
      rw [perform_error ho]
      exact hnext

theorem Within.sp_le_capacity (h : Within m₀ m) : m.sp ≤ m.capacity := by
  have hcapacity := h.capacity
  have hsp := h.sp
  have hsize := h.size
  omega

/-- Nothing but an empty stack keeps a word from being taken off. -/
theorem Within.sp_eq_zero (h : Within m₀ m) {f : Fault} {m' : Machine} (hpop : pop m = .error f m') :
    m.sp = 0 := by
  by_cases hsp : m.sp = 0
  · exact hsp
  · rw [pop_eq (Nat.pos_of_ne_zero hsp) h.sp_le_capacity] at hpop
    cases hpop

theorem Within.popped (h : Within m₀ m) {w : Word} {m₁ : Machine} (hpop : pop m = .ok w m₁) :
    Within m₀ m₁ ∧ m₁.sp < m.sp := by
  refine ⟨(Safe.pop h).within_of_ok hpop, ?_⟩
  by_cases hsp : m.sp = 0
  · rw [pop, if_pos hsp] at hpop
    cases hpop
  · rw [pop_eq (Nat.pos_of_ne_zero hsp) h.sp_le_capacity] at hpop
    cases hpop
    exact Nat.sub_one_lt hsp

theorem Within.push_ok (h : Within m₀ m) (hsp : m.sp < m₀.capacity) (w : Word) :
    ∃ m₁, push w m = .ok () m₁ := by
  rw [← h.capacity] at hsp
  rw [push_eq, if_pos hsp]
  exact ⟨_, rfl⟩

end Machine

/-- The words that the stack has need not be filled up with zeros. -/
theorem Stack.take_eq {s : Stack} {n : Nat} (h : n ≤ s.size) : s.take n = s.words.toList.take n := by
  have hsize : s.words.size = s.size := rfl
  apply List.ext_getElem
  · simp only [take, List.length_map, List.length_range, List.length_take, Array.length_toList]
    omega
  · intro i hi _
    have hlt : i < s.words.size := by
      simp only [take, List.length_map, List.length_range] at hi
      omega
    simp [take, get, hlt]

/-- Whatever has been done to a machine with whatever code, its registers are in bounds. So the stack
shows only words that it has, taking a word off fails only if there is none, an arithmetic instruction
has room for its result, a run that halts has a result to read, and the sums and differences of no
operation leave the sizes of 64 bits. -/
theorem operations_keep_bounds {code : List Word} {frameSize paramSlot capacity : Nat}
    {os : List Operation} {m : Machine}
    (hm : Operation.after os { code := code.toArray, frameSize, paramSlot, capacity } = m) :
    (m.sp ≤ m.stack.size ∧ m.stack.size ≤ capacity ∧ m.fp ≤ max capacity (Word.sizeLimit - 1) ∧
      m.ip ≤ max code.length (Word.sizeLimit - 1)) ∧
    m.live = m.stack.words.toList.take m.sp ∧
    (∀ f m', pop m = .error f m' → m.sp = 0) ∧
    (∀ b m₁, pop m = .ok b m₁ → (∀ f m', pop m₁ = .error f m' → m₁.sp = 0) ∧
      ∀ a m₂, pop m₁ = .ok a m₂ → ∀ r, ∃ m', push r m₂ = .ok () m') ∧
    (∀ arg m₁ bound m₂, reset arg m = .ok () m₁ → runFor bound m₁ = .ok true m₂ →
      ∃ result, read 0 m₂ = .ok result m₂) ∧
    (capacity + frameSize + paramSlot + 4 * Word.sizeLimit < Size.limit → code.length < Size.limit →
      ∀ o : Operation, o.sized m = Sized.of o.action m) := by
  have hfresh : Within { code := code.toArray, frameSize, paramSlot, capacity }
      { code := code.toArray, frameSize, paramSlot, capacity } :=
    ⟨rfl, rfl, rfl, rfl, Nat.zero_le _, Nat.zero_le _, Nat.zero_le _, Nat.zero_le _⟩
  have h := hm ▸ hfresh.after os
  have hsp := h.sp_le_capacity
  have hcapacity : m.capacity = capacity := h.capacity
  refine ⟨⟨h.sp, h.size, h.fp, h.ip⟩, Stack.take_eq h.sp, fun f m' => h.sp_eq_zero, ?_, ?_, ?_⟩
  · intro b m₁ hb
    obtain ⟨h₁, hlt₁⟩ := h.popped hb
    refine ⟨fun f m' => h₁.sp_eq_zero, fun a m₂ ha r => ?_⟩
    obtain ⟨h₂, hlt₂⟩ := h₁.popped ha
    exact h₂.push_ok (show m₂.sp < capacity by omega) r
  · intro arg m₁ bound m₂ hreset hrun
    have hroom : 0 < capacity := by
      rw [reset_eq, hcapacity] at hreset
      split at hreset
      · assumption
      · cases hreset
    have h₁ := (Safe.reset h arg).within_of_ok hreset
    have h₂ := (Safe.runFor h₁ bound).within_of_ok hrun
    exact ⟨_, read_eq (h₂.capacity.symm ▸ hroom)⟩
  · intro hstack hcode o
    exact (Safe.operation h o).agrees ⟨hstack, hcode⟩

/-- Here a run fails in the middle of a return, whose saved registers the code has overwritten. -/
theorem operations_keep_bounds_corrupt :
    ∃ m, Operation.after [.run 9 5, .setHalted true, .step]
        ⟨#[13, 2, 8, 4, 8, 6, 1, 0, 1, -1, 1, 2147483647, 14], 1, 0, 4, 0, 0, 0, false, .empty⟩ = m ∧
      m.ip = 12 ∧ m.fp = 2147483647 ∧ m.live = [2147483647] ∧ m.stack.size = 4 ∧
      Operation.step.sized m = Sized.of step m := by
  have hm : Operation.after [.run 9 5, .setHalted true, .step]
      ⟨#[13, 2, 8, 4, 8, 6, 1, 0, 1, -1, 1, 2147483647, 14], 1, 0, 4, 0, 0, 0, false, .empty⟩ =
      ⟨#[13, 2, 8, 4, 8, 6, 1, 0, 1, -1, 1, 2147483647, 14], 1, 0, 4, 12, 1, 2147483647, true,
        ⟨#[2147483647, -1, 2147483647, 5]⟩⟩ := by
    decide +kernel
  obtain ⟨-, hlive, -, -, -, hsized⟩ := operations_keep_bounds hm
  exact ⟨_, hm, rfl, rfl, hlive, rfl, hsized (by decide) (by decide) .step⟩

-- frames too large for a size do trap the machine
example : Operation.step.sized ⟨#[13, 0], Size.limit, 0, 4, 0, 1, 0, false, ⟨#[5]⟩⟩ =
    .error .noSize ⟨#[13, 0], Size.limit, 0, 4, 0, 1, 0, false, ⟨#[5]⟩⟩ := rfl

end Solo
