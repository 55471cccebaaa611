/-! Actions that carry a state and can fail, one after the other. Compiling and stepping are made of
such actions; these are the lemmas by which they are taken apart and put together. -/

namespace Solo

variable {ε σ α β : Type} {x : EStateM ε σ α} {f : α → EStateM ε σ β} {s s₁ s' : σ} {a : α} {b : β}

theorem bind_eq_ok : (x >>= f) s = .ok b s' ↔ ∃ a s₁, x s = .ok a s₁ ∧ f a s₁ = .ok b s' := by
  change EStateM.bind x f s = _ ↔ _
  unfold EStateM.bind
  cases x s with
  | ok a s₁ => exact ⟨fun h => ⟨a, s₁, rfl, h⟩, fun ⟨_, _, he, h⟩ => by cases he; exact h⟩
  | error e s₁ => simp

theorem bind_eq_error {e : ε} : (x >>= f) s = .error e s' ↔
    x s = .error e s' ∨ ∃ a s₁, x s = .ok a s₁ ∧ f a s₁ = .error e s' := by
  change EStateM.bind x f s = _ ↔ _
  unfold EStateM.bind
  cases x s with
  | ok a s₁ =>
    refine ⟨fun h => .inr ⟨a, s₁, rfl, h⟩, ?_⟩
    rintro (h | ⟨_, _, he, h⟩)
    · cases h
    · cases he
      exact h
  | error e s₁ => simp

theorem bind_of_ok (h : x s = .ok a s₁) : (x >>= f) s = f a s₁ := by
  change EStateM.bind x f s = _
  rw [EStateM.bind, h]

theorem bind_of_error {e : ε} (h : x s = .error e s₁) : (x >>= f) s = .error e s₁ := by
  change EStateM.bind x f s = _
  rw [EStateM.bind, h]

theorem bind_congr {y : EStateM ε σ α} (h : x s = y s) : (x >>= f) s = (y >>= f) s := by
  change EStateM.bind x f s = EStateM.bind y f s
  rw [EStateM.bind, EStateM.bind, h]

/-- What an action leaves of a state is all that the next one sees of it. -/
theorem bind_state_congr {t : σ} (h : x s = x t) : (x >>= f) s = (x >>= f) t := by
  change EStateM.bind x f s = EStateM.bind x f t
  rw [EStateM.bind, EStateM.bind, h]

theorem run'_eq_some : x.run' s = some a ↔ ∃ s₁, x s = .ok a s₁ := by
  change (match x s with | .ok v _ => some v | .error _ _ => none) = some a ↔ _
  cases x s <;> simp

theorem pure_eq_ok {a' : α} : (pure a : EStateM ε σ α) s = .ok a' s' ↔ a = a' ∧ s = s' := by
  change EStateM.Result.ok a s = .ok a' s' ↔ _
  simp

theorem eq_ok_of_toOption {r : Except ε α} (h : r.toOption = some a) : r = .ok a := by
  cases r with
  | ok _ => exact congrArg Except.ok (Option.some.inj h)
  | error _ => cases h

def failure? : Except ε α → Option ε
  | .error e => some e
  | .ok _ => none

theorem eq_error_of_failure? {r : Except ε α} {e : ε} (h : failure? r = some e) : r = .error e := by
  cases r with
  | ok _ => cases h
  | error _ => exact congrArg Except.error (Option.some.inj h)

theorem get_bind {g : σ → EStateM ε σ β} : (get >>= g) s = g s s := rfl

end Solo
