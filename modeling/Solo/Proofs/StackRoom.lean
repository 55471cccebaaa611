import Solo.Machine.Run
import Solo.Proofs.Actions

/-! The stack's capacity decides only whether there is room. With more of it every action does the same
in the same order, unless it has run out of room before; so two machines that differ in their capacity
alone stay together until the smaller one overflows, whatever code they hold. -/

namespace Solo

/-- The fault is for want of stack. -/
def Fault.IsOverflow (f : Fault) : Prop := ∃ capacity, f.cause = .stackOverflow capacity

namespace Machine

def withCapacity (c : Nat) (m : Machine) : Machine := { m with capacity := c }

/-- The same outcome, with capacity `c` in the machine that is left. -/
def resized {α : Type} (c : Nat) :
    EStateM.Result Fault Machine α → EStateM.Result Fault Machine α
  | .ok a m => .ok a (m.withCapacity c)
  | .error f m => .error f (m.withCapacity c)

/-- The machine that is left, however the action has ended. -/
def left {α : Type} : EStateM.Result Fault Machine α → Machine
  | .ok _ m => m
  | .error _ m => m

/-- A machine that has halted stays as it is, and any other takes a step first. -/
theorem runFor_bind (bound : Nat) (m : Machine) : runFor (bound + 1) m =
    if m.halted then .ok true m else (step >>= fun _ => runFor bound) m := by
  simp only [runFor]
  cases h : step m with
  | ok _ m₁ => rw [bind_of_ok h]
  | error f m₁ => rw [bind_of_error h]

/-- The action keeps the capacity, and with more of it does the same or has run out. -/
structure Grows {α : Type} (x : Action α) : Prop where
  keeps : ∀ m, (left (x m)).capacity = m.capacity
  same : ∀ (m : Machine) {c : Nat}, m.capacity ≤ c →
    (∃ f m', x m = .error f m' ∧ f.IsOverflow) ∨ x (m.withCapacity c) = resized c (x m)

namespace Grows

variable {α β : Type} {x : Action α} {f : α → Action β}

theorem bind (hx : Grows x) (hf : ∀ a, Grows (f a)) : Grows (x >>= f) where
  keeps m := by
    have hkeeps := hx.keeps m
    cases h : x m with
    | ok a m₁ =>
      rw [h] at hkeeps
      rw [bind_of_ok h, (hf a).keeps m₁]
      exact hkeeps
    | error e m₁ =>
      rw [h] at hkeeps
      rw [bind_of_error h]
      exact hkeeps
  same m c hc := by
    have hkeeps := hx.keeps m
    cases h : x m with
    | ok a m₁ =>
      rw [h] at hkeeps
      obtain ⟨e, m', he, -⟩ | hsame := hx.same m hc
      · rw [h] at he
        cases he
      · rw [h] at hsame
        rw [bind_of_ok h, bind_of_ok hsame]
        exact (hf a).same m₁ (Nat.le_trans (Nat.le_of_eq hkeeps) hc)
    | error e m₁ =>
      obtain ⟨e, m', he, hover⟩ | hsame := hx.same m hc
      · exact .inl ⟨e, m', bind_of_error he, hover⟩
      · rw [h] at hsame
        rw [bind_of_error h, bind_of_error hsame]
        exact .inr rfl

theorem pure (a : α) : Grows (Pure.pure a : Action α) := ⟨fun _ => rfl, fun _ _ _ => .inr rfl⟩

/-- An action may look at whatever has nothing to do with the capacity. -/
theorem get_bind {f : Machine → Action β} (hf : ∀ m, Grows (f m))
    (hsame : ∀ m c, f (m.withCapacity c) = f m) : Grows (get >>= f) where
  keeps m := (hf m).keeps m
  same m c hc := by
    have hlarge : (get >>= f) (m.withCapacity c) = f m (m.withCapacity c) := by
      rw [Solo.get_bind, hsame]
    rw [hlarge]
    exact (hf m).same m hc

theorem modifying {g : Machine → Machine} (hkeeps : ∀ m, (g m).capacity = m.capacity)
    (hsame : ∀ m c, g (m.withCapacity c) = (g m).withCapacity c) : Grows (modify g : Action Unit) where
  keeps m := hkeeps m
  same m c _ := .inr (congrArg (EStateM.Result.ok ()) (hsame m c))

theorem modifying_bind {g : Machine → Machine} {f : Unit → Action β}
    (hkeeps : ∀ m, (g m).capacity = m.capacity)
    (hsame : ∀ m c, g (m.withCapacity c) = (g m).withCapacity c) (hf : Grows (f ())) :
    Grows (modify g >>= f) :=
  (modifying hkeeps hsame).bind fun _ => hf

theorem fail (cause : Fault.Cause) : Grows (Machine.fail cause : Action α) :=
  ⟨fun _ => rfl, fun _ _ _ => .inr rfl⟩

theorem ensure (p : Prop) [Decidable p] (cause : Fault.Cause) : Grows (Machine.ensure p cause) := by
  unfold Machine.ensure
  split
  · exact .pure ()
  · exact .fail cause

/-- An action that needs room up to a certain index, and then does not look at the capacity. -/
theorem of_room {n : Nat} {g : Machine → α × Machine} (hx : ∀ m, x m =
      if n ≤ m.capacity then .ok (g m).1 (g m).2 else overflow m)
    (hkeeps : ∀ m, (g m).2.capacity = m.capacity)
    (hsame : ∀ m c, g (m.withCapacity c) = ((g m).1, (g m).2.withCapacity c)) : Grows x where
  keeps m := by
    rw [hx]
    split
    · exact hkeeps m
    · rfl
  same m c hc := by
    rw [hx, hx]
    by_cases hroom : n ≤ m.capacity
    · have hlarge : n ≤ (m.withCapacity c).capacity := Nat.le_trans hroom hc
      rw [if_pos hroom, if_pos hlarge, hsame]
      exact .inr rfl
    · rw [if_neg hroom]
      exact .inl ⟨_, m, rfl, m.capacity, rfl⟩

theorem ensureRoom (n : Nat) : Grows (Machine.ensureRoom n) :=
  of_room (g := fun m => ((), m)) (fun _ => rfl) (fun _ => rfl) fun _ _ => rfl

theorem read (i : Nat) : Grows (Machine.read i) :=
  of_room (g := fun m => (m.stack.get i, m)) (fun _ => rfl) (fun _ => rfl) fun _ _ => rfl

theorem write (i : Nat) (w : Word) : Grows (Machine.write i w) :=
  of_room (g := fun m => ((), { m with stack := m.stack.set i w })) (fun _ => rfl) (fun _ => rfl)
    fun _ _ => rfl

theorem push (w : Word) : Grows (Machine.push w) :=
  get_bind (fun m => (write m.sp w).bind fun _ => modifying (fun _ => rfl) fun _ _ => rfl)
    fun _ _ => rfl

theorem pop : Grows Machine.pop where
  keeps m := by
    unfold Machine.pop
    split
    · rfl
    · exact (read (m.sp - 1)).keeps { m with sp := m.sp - 1 }
  same m c hc := by
    by_cases hsp : m.sp = 0
    · right
      have hlarge : (m.withCapacity c).sp = 0 := hsp
      rw [Machine.pop, Machine.pop, if_pos hsp, if_pos hlarge]
      rfl
    · have hlarge : ¬ (m.withCapacity c).sp = 0 := hsp
      rw [Machine.pop, Machine.pop, if_neg hsp, if_neg hlarge]
      exact (read (m.sp - 1)).same { m with sp := m.sp - 1 } hc

theorem jump (addr : Nat) : Grows (Machine.jump addr) := modifying (fun _ => rfl) fun _ _ => rfl

theorem saved (value : Nat) : Grows (Machine.saved value) := by
  unfold Machine.saved
  split
  · exact .pure _
  · exact .fail _

theorem restored (w : Word) : Grows (Machine.restored w) := by
  unfold Machine.restored
  split
  · exact .pure _
  · exact .fail _

theorem arith (op : Arith) : Grows (Machine.arith op) := by
  refine pop.bind fun b => pop.bind fun a => ?_
  split
  · exact .push _
  · exact .fail _

theorem branch (test : Comparison) (target next : Nat) : Grows (Machine.branch test target next) :=
  pop.bind fun _ => pop.bind fun _ => .jump _

theorem call (target next : Nat) : Grows (Machine.call target next) := by
  refine get_bind (fun m => get_bind (fun m' => ?_) fun _ _ => rfl) fun _ _ => rfl
  refine (ensure _ _).bind fun _ => (ensureRoom _).bind fun _ => (saved next).bind fun next => ?_
  refine get_bind (fun m₁ => (saved m₁.fp).bind fun caller => ?_) fun _ _ => rfl
  refine (write _ next).bind fun _ => (write _ caller).bind fun _ => ?_
  refine modifying_bind (fun _ => rfl) (fun _ _ => rfl) ((read _).bind fun arg => ?_)
  refine get_bind (fun m₂ => (write _ arg).bind fun _ => ?_) fun _ _ => rfl
  exact modifying (fun _ => rfl) fun _ _ => rfl

theorem ret : Grows Machine.ret := by
  refine get_bind (fun m => (ensure _ _).bind fun _ => ?_) fun _ _ => rfl
  refine get_bind (fun m₁ => (ensure _ _).bind fun _ => ?_) fun _ _ => rfl
  refine get_bind (fun m₂ => (read _).bind fun result => ?_) fun _ _ => rfl
  refine (write _ result).bind fun _ => modifying_bind (fun _ => rfl) (fun _ _ => rfl) ?_
  refine (read _).bind fun w => (restored w).bind fun caller => ?_
  refine modifying_bind (fun _ => rfl) (fun _ _ => rfl) ?_
  exact (read _).bind fun w => (restored w).bind fun next => .jump next

theorem execute (i : Instruction) (next : Nat) : Grows (Machine.execute i next) := by
  cases i with
  | nop => exact .jump next
  | push w => exact (push w).bind fun _ => .jump next
  | load slot =>
    exact get_bind (fun m => (read _).bind fun w => (push w).bind fun _ => .jump next) fun _ _ => rfl
  | store slot =>
    exact pop.bind fun w =>
      get_bind (fun m => (write _ w).bind fun _ => .jump next) fun _ _ => rfl
  | arith op => exact (arith op).bind fun _ => .jump next
  | branch test target => exact .branch test target next
  | goto target => exact .jump target
  | call target => exact .call target next
  | ret => exact .ret
  | stop => exact modifying (fun _ => rfl) fun _ _ => rfl

theorem step : Grows Machine.step where
  keeps m := by
    unfold Machine.step
    split
    · exact (execute _ _).keeps m
    · rfl
  same m c hc := by
    have hfetch : (m.withCapacity c).fetch = m.fetch := rfl
    unfold Machine.step
    rw [hfetch]
    split
    · exact (execute _ _).same m hc
    · exact .inr rfl

theorem reset (arg : Word) : Grows (Machine.reset arg) :=
  modifying_bind (fun _ => rfl) (fun _ _ => rfl) (push arg)

theorem runFor (bound : Nat) : Grows (Machine.runFor bound) := by
  induction bound with
  | zero => exact ⟨fun _ => rfl, fun _ _ _ => .inr rfl⟩
  | succ bound ih =>
    have hrest := step.bind fun _ => ih
    refine ⟨fun m => ?_, fun m c hc => ?_⟩
    · rw [runFor_bind]
      split
      · rfl
      · exact hrest.keeps m
    · have hhalted : (m.withCapacity c).halted = m.halted := rfl
      rw [runFor_bind, runFor_bind, hhalted]
      split
      · exact .inr rfl
      · exact hrest.same m hc

theorem run (bound : Nat) (arg : Word) : Grows (Machine.run bound arg) := by
  refine (reset arg).bind fun _ => (runFor bound).bind fun halted => ?_
  split
  · exact (read 0).bind fun result => .pure _
  · exact .pure _

end Grows

/-- What actions answer that are performed one after the other, each on the machine that the one
before has left, whether it failed or not; and the machine that the last one leaves. -/
def perform : List (Action Unit) → Machine → List (Option Fault) × Machine
  | [], m => ([], m)
  | x :: xs, m =>
    match x m with
    | .ok _ m => Prod.map (none :: ·) id (perform xs m)
    | .error f m => Prod.map (some f :: ·) id (perform xs m)

theorem perform_ok {x : Action Unit} {m m₁ : Machine} (h : x m = .ok () m₁)
    (xs : List (Action Unit)) :
    perform (x :: xs) m = Prod.map (none :: ·) id (perform xs m₁) := by
  rw [perform, h]

theorem perform_error {x : Action Unit} {m m₁ : Machine} {f : Fault} (h : x m = .error f m₁)
    (xs : List (Action Unit)) :
    perform (x :: xs) m = Prod.map (some f :: ·) id (perform xs m₁) := by
  rw [perform, h]

theorem perform_withCapacity {xs : List (Action Unit)} (hxs : ∀ x ∈ xs, Grows x) {m : Machine}
    {c : Nat} (hc : m.capacity ≤ c) (hroom : ∀ f, some f ∈ (perform xs m).1 → ¬ f.IsOverflow) :
    perform xs (m.withCapacity c) = Prod.map id (withCapacity c) (perform xs m) := by
  induction xs generalizing m with
  | nil => rfl
  | cons x xs ih =>
    obtain ⟨hx, hxs⟩ := List.forall_mem_cons.1 hxs
    have hkeeps := hx.keeps m
    obtain ⟨f, m₁, h, hover⟩ | hsame := hx.same m hc
    · rw [perform_error h] at hroom
      exact absurd hover (hroom f List.mem_cons_self)
    · cases h : x m with
      | ok _ m₁ =>
        rw [h] at hkeeps hsame
        rw [perform_ok h] at hroom
        rw [perform_ok hsame, perform_ok h,
          ih hxs (hkeeps.symm ▸ hc) fun f hf => hroom f (List.mem_cons_of_mem _ hf)]
        rfl
      | error f m₁ =>
        rw [h] at hkeeps hsame
        rw [perform_error h] at hroom
        rw [perform_error hsame, perform_error h,
          ih hxs (hkeeps.symm ▸ hc) fun f hf => hroom f (List.mem_cons_of_mem _ hf)]
        rfl

/-- A larger stack changes nothing but that there is no overflow: not what the machine answers or
becomes at any step that it is asked for, and not how a run ends. -/
theorem capacity_only_overflows {m : Machine} {c : Nat} (hc : m.capacity ≤ c) (arg : Word) :
    (∀ n, (∀ f, some f ∈ (perform (reset arg :: List.replicate n step) m).1 → ¬ f.IsOverflow) →
      perform (reset arg :: List.replicate n step) (m.withCapacity c) =
        Prod.map id (withCapacity c) (perform (reset arg :: List.replicate n step) m)) ∧
    (∀ bound v m', run bound arg m = .ok (some v) m' →
      run bound arg (m.withCapacity c) = .ok (some v) (m'.withCapacity c)) ∧
    ∀ bound f m', run bound arg m = .error f m' → ¬ f.IsOverflow →
      run bound arg (m.withCapacity c) = .error f (m'.withCapacity c) := by
  refine ⟨fun n hroom => perform_withCapacity ?_ hc hroom, fun bound v m' h => ?_,
    fun bound f m' h hother => ?_⟩
  · intro x hx
    rcases List.mem_cons.1 hx with rfl | hx
    · exact .reset arg
    · rw [List.eq_of_mem_replicate hx]
      exact .step
  · obtain ⟨f, m₁, h₁, -⟩ | hsame := (Grows.run bound arg).same m hc
    · rw [h] at h₁
      cases h₁
    · rw [hsame, h]
      rfl
  · obtain ⟨f₁, m₁, h₁, hover⟩ | hsame := (Grows.run bound arg).same m hc
    · rw [h] at h₁
      cases h₁
      exact absurd hover hother
    · rw [hsame, h]
      rfl

theorem capacity_only_overflows_quotient :
    (perform (reset 0 :: List.replicate 4 step) (withCapacity 100
      ⟨#[13, 3, 15, 1, 1, 2, 0, 7, 14], 1, 0, 6, 0, 0, 0, false, .empty⟩)).1 =
        [none, none, none, none, some ⟨7, .divisionByZero⟩] ∧
    ∃ m, run 9 1 (withCapacity 100
      ⟨#[13, 3, 15, 1, 1, 2, 0, 7, 14], 1, 0, 6, 0, 0, 0, false, .empty⟩) = .ok (some 1) m := by
  have hc : capacity ⟨#[13, 3, 15, 1, 1, 2, 0, 7, 14], 1, 0, 6, 0, 0, 0, false, .empty⟩ ≤ 100 := by
    decide
  have hsteps : (perform (reset 0 :: List.replicate 4 step)
      ⟨#[13, 3, 15, 1, 1, 2, 0, 7, 14], 1, 0, 6, 0, 0, 0, false, .empty⟩).1 =
        [none, none, none, none, some ⟨7, .divisionByZero⟩] := by
    decide +kernel
  have hvalue : (run 9 1).run'
      ⟨#[13, 3, 15, 1, 1, 2, 0, 7, 14], 1, 0, 6, 0, 0, 0, false, .empty⟩ = some (some 1) := by
    decide +kernel
  obtain ⟨m, hvalue⟩ := run'_eq_some.1 hvalue
  obtain ⟨hperform, -⟩ := capacity_only_overflows hc 0
  obtain ⟨-, hrun, -⟩ := capacity_only_overflows hc 1
  have hsame := hperform 4 (by rw [hsteps]; simp [Fault.IsOverflow])
  refine ⟨?_, m.withCapacity 100, hrun 9 1 m hvalue⟩
  rw [hsame, Prod.map_fst, hsteps]
  rfl

end Machine

end Solo
