import Solo.Proofs.Following
import Solo.Proofs.Operations

/-! Runs do not depend on what was done to the machine before. No operation changes the code or the sizes
of a machine, however it ends, and making it ready for a run sets all the rest; so a machine that is made
ready is the one that a new machine becomes, down to the words that its stack does not show. -/

namespace Solo

namespace Machine

/-- A machine to which nothing has been done. -/
def fresh (code : List Word) (frameSize paramSlot capacity : Nat) : Machine :=
  { code := code.toArray, frameSize, paramSlot, capacity }

theorem within_fresh (code : List Word) (frameSize paramSlot capacity : Nat) :
    Within (fresh code frameSize paramSlot capacity) (fresh code frameSize paramSlot capacity) :=
  ⟨rfl, rfl, rfl, rfl, Nat.zero_le _, Nat.zero_le _, Nat.zero_le _, Nat.zero_le _⟩

variable {m m₀ : Machine} {arg : Word}

/-- What is left of `m` when it is made ready are its code and its sizes. -/
theorem Within.reset_eq (h : Within m₀ m) (arg : Word) : reset arg m = reset arg m₀ := by
  obtain ⟨code, frameSize, paramSlot, capacity, ip, sp, fp, halted, stack⟩ := m
  obtain ⟨rfl, rfl, rfl, rfl, -, -, -, -⟩ := h
  rfl

theorem Within.run_eq (h : Within m₀ m) (bound : Nat) (arg : Word) :
    run bound arg m = run bound arg m₀ :=
  bind_state_congr (h.reset_eq arg)

/-- The outcome of a run as one of a run that has ended within its bound. -/
def ended : EStateM.Result Fault Machine Word → EStateM.Result Fault Machine (Option Word)
  | .ok value m => .ok (some value) m
  | .error f m => .error f m

/-- A run from `m` ends, in the way that `r` tells. -/
def RunsTo (m : Machine) (arg : Word) (r : EStateM.Result Fault Machine Word) : Prop :=
  ∃ bound, ∀ k, bound ≤ k → run k arg m = ended r

/-- A run from `m` goes on for ever. -/
def Endless (m : Machine) (arg : Word) : Prop := ∀ bound, ∃ m', run bound arg m = .ok none m'

/-- From a machine that is ready a run steps on, and has no value as long as it has not halted. -/
theorem exists_run_eq {m₁ : Machine} (hreset : reset arg m = .ok () m₁) :
    ∃ f : Bool → Action (Option Word), (∀ m', f false m' = .ok none m') ∧
      ∀ bound, run bound arg m = (runFor bound >>= f) m₁ :=
  ⟨_, fun _ => rfl, fun _ => bind_of_ok hreset⟩

/-- More steps do not change how a run has ended. -/
theorem run_stays {bound k : Nat} (hle : bound ≤ k) (h : ∀ m', run bound arg m ≠ .ok none m') :
    run k arg m = run bound arg m := by
  cases hreset : reset arg m with
  | error f m₁ => exact (bind_of_error hreset).trans (bind_of_error hreset).symm
  | ok _ m₁ =>
    obtain ⟨f, hfalse, hrun⟩ := exists_run_eq hreset
    rw [hrun] at h
    rw [hrun, hrun]
    refine bind_congr (runFor_mono hle fun m' hm' => h m' ?_)
    rw [bind_of_ok hm', hfalse]

theorem runsTo_or_endless (m : Machine) (arg : Word) : (∃ r, RunsTo m arg r) ∨ Endless m arg := by
  by_cases h : Endless m arg
  · exact .inr h
  · obtain ⟨bound, hbound⟩ := Classical.not_forall.1 h
    have hstays : ∀ k, bound ≤ k → run k arg m = run bound arg m :=
      fun k hk => run_stays hk fun m' hm' => hbound ⟨m', hm'⟩
    left
    cases hrun : run bound arg m with
    | error f m' => exact ⟨.error f m', bound, fun k hk => (hstays k hk).trans hrun⟩
    | ok value m' =>
      cases value with
      | some v => exact ⟨.ok v m', bound, fun k hk => (hstays k hk).trans hrun⟩
      | none => exact absurd ⟨m', hrun⟩ hbound

end Machine

open Machine

/-- Whatever has been done to a machine with whatever code, making it ready gives the same answer and
leaves the same machine as if it were new; so a run from it ends as on a new one, or neither ends. -/
theorem runs_forget_history (code : List Word) (frameSize paramSlot capacity : Nat)
    (os : List Operation) (arg : Word) :
    reset arg (Operation.after os (fresh code frameSize paramSlot capacity)) =
      reset arg (fresh code frameSize paramSlot capacity) ∧
    (∀ bound, run bound arg (Operation.after os (fresh code frameSize paramSlot capacity)) =
      run bound arg (fresh code frameSize paramSlot capacity)) ∧
    ((∃ r, RunsTo (Operation.after os (fresh code frameSize paramSlot capacity)) arg r ∧
        RunsTo (fresh code frameSize paramSlot capacity) arg r) ∨
      Endless (Operation.after os (fresh code frameSize paramSlot capacity)) arg ∧
        Endless (fresh code frameSize paramSlot capacity) arg) := by
  have h := (within_fresh code frameSize paramSlot capacity).after os
  have hrun := fun bound => h.run_eq bound arg
  refine ⟨h.reset_eq arg, hrun, ?_⟩
  rcases runsTo_or_endless (fresh code frameSize paramSlot capacity) arg with ⟨r, bound, hr⟩ | hendless
  · exact .inl ⟨r, ⟨bound, fun k hk => (hrun k).trans (hr k hk)⟩, bound, hr⟩
  · refine .inr ⟨fun bound => ?_, hendless⟩
    rw [hrun]
    exact hendless bound

-- a run that failed in the middle of a return has left words on the stack
example : (Operation.after [.run 9 5]
      (fresh [13, 2, 8, 4, 8, 6, 1, 0, 1, -1, 1, 2147483647, 14] 1 0 4)).stack.words =
        #[2147483647, -1, 2147483647, 5] ∧
    (left (reset 7 (Operation.after [.run 9 5]
      (fresh [13, 2, 8, 4, 8, 6, 1, 0, 1, -1, 1, 2147483647, 14] 1 0 4)))).stack.words = #[7] := by
  decide +kernel

end Solo
