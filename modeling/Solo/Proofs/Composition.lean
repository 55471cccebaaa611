import Solo.Proofs.Drafting

/-! The rules of the grammar are made of a few primitive actions. They look at tokens one at a time,
and at a name only to see that there is one. What holds of the primitive actions and is kept by doing
one after the other holds of every rule, by induction on `Composed`. -/

namespace Solo

/-- The action is made of primitive ones, and what it does at a name depends only on its slot. -/
inductive Composed : {α : Type} → Drafting α → Prop where
  | pure {α : Type} (a : α) : Composed (Pure.pure a : Drafting α)
  | bind {α β : Type} {x : Drafting α} {f : α → Drafting β} (hx : Composed x)
      (hf : ∀ a, Composed (f a)) : Composed (x >>= f)
  | look {α : Type} {f : Token → Drafting α} (hname : ∀ x y k, f (.ident x k) = f (.ident y k))
      (hf : ∀ t, Composed (f t)) : Composed (Toolkit.token >>= f)
  | here : Composed Draft.here
  | advance : Composed Draft.advance
  | reject {α : Type} (expected : Expected) : Composed (Draft.reject expected : Drafting α)
  | emit (i : Instruction) : Composed (Draft.emit i)
  | emitJump (i : Instruction) : Composed (Draft.emitJump i)
  | patch (index : Nat) : Composed (Draft.patch index)

namespace Composed

theorem expect {t : Token} (ht : ∀ x k, t ≠ .ident x k) : Composed (Draft.expect t) := by
  refine look (fun x y k => ?_) fun t' => ?_
  · rw [if_neg (ht x k).symm, if_neg (ht y k).symm]
  · split
    · exact advance
    · exact reject _

theorem name (expected : Expected) : Composed (Draft.name expected) := by
  refine look (fun _ _ _ => rfl) fun t => ?_
  split
  · exact advance.bind fun _ => pure _
  · exact reject _

theorem parens {inner : Drafting Unit} (h : Composed inner) : Composed (Rules.parens inner) :=
  (expect (by simp)).bind fun _ => h.bind fun _ => expect (by simp)

theorem braces {inner : Drafting Unit} (h : Composed inner) : Composed (Rules.braces inner) :=
  (expect (by simp)).bind fun _ => h.bind fun _ => expect (by simp)

end Composed

namespace Rules

structure ExpressionsComposed (entry n : Nat) : Prop where
  expression : Composed (expression entry n)
  term : Composed (term entry n)
  operations : ∀ {op? : Token → Option Arith}, Punctual op? → Composed (operations op? entry n)
  factor : Composed (factor entry n)

theorem expressions_composed (entry n : Nat) : ExpressionsComposed entry n := by
  induction n with
  | zero => exact ⟨.reject _, .reject _, fun _ => .reject _, .reject _⟩
  | succ n ih =>
    refine ⟨?_, ?_, fun {op?} hop? => ?_, ?_⟩
    · rw [expression]
      exact ih.term.bind fun _ => ih.operations punctual_additive
    · rw [term]
      exact ih.factor.bind fun _ => ih.operations punctual_multiplicative
    · rw [operations]
      have hname (x : String) (k : Nat) : op? (.ident x k) = none := by
        refine Option.eq_none_iff_forall_ne_some.2 fun op h => ?_
        obtain ⟨p, hp⟩ := hop? h
        cases hp
      refine .look (fun x y k => by rw [hname, hname]) fun t => ?_
      split
      · exact Composed.advance.bind fun _ => ih.term.bind fun _ =>
          (Composed.emit _).bind fun _ => ih.operations hop?
      · exact .pure _
    · rw [factor]
      refine .look (fun _ _ _ => rfl) fun t => ?_
      split
      · exact ih.expression.parens
      · exact (Composed.emit _).bind fun _ => .advance
      · refine Composed.advance.bind fun _ => .look (by simp) fun t => ?_
        split
        · exact ih.expression.parens.bind fun _ => .emit _
        · exact .emit _
      · exact .reject _

theorem condition_composed (entry n : Nat) : Composed (condition entry n) := by
  have hexpr := (expressions_composed entry n).expression
  refine (Composed.expect (by simp)).bind fun _ => hexpr.bind fun _ =>
    .look (fun _ _ _ => rfl) fun t => ?_
  split
  · exact Composed.advance.bind fun _ => hexpr.bind fun _ =>
      (Composed.expect (by simp)).bind fun _ => .emitJump _
  · exact .reject _

structure StatementsComposed (entry n : Nat) : Prop where
  statement : Composed (statement entry n)
  statements : Composed (statements entry n)

theorem statements_composed (entry n : Nat) : StatementsComposed entry n := by
  induction n with
  | zero => exact ⟨.reject _, .reject _⟩
  | succ n ih =>
    have hexpr := (expressions_composed entry n).expression
    have hcond := condition_composed entry n
    refine ⟨?_, ?_⟩
    · rw [statement]
      refine .look (fun _ _ _ => rfl) fun t => ?_
      split
      · exact Composed.advance.bind fun _ => (Composed.expect (by simp)).bind fun _ =>
          hexpr.bind fun _ => (Composed.emit _).bind fun _ => .expect (by simp)
      · exact Composed.advance.bind fun _ => hcond.bind fun _ => ih.statement.bind fun _ =>
          (Composed.emitJump _).bind fun _ => (Composed.expect (by simp)).bind fun _ =>
          (Composed.patch _).bind fun _ => ih.statement.bind fun _ => .patch _
      · exact Composed.advance.bind fun _ => Composed.here.bind fun _ => hcond.bind fun _ =>
          ih.statement.bind fun _ => (Composed.emit _).bind fun _ => .patch _
      · exact Composed.advance.bind fun _ => hexpr.bind fun _ => (Composed.emit _).bind fun _ =>
          .expect (by simp)
      · exact ih.statements.braces
      · exact .advance
      · exact .reject _
    · rw [statements]
      refine .look (by simp) fun t => ?_
      split
      · exact .pure _
      · exact ih.statement.bind fun _ => ih.statements

theorem function_composed (entry n : Nat) : Composed (function entry n) :=
  (Composed.name _).bind fun _ => (Composed.expect (by simp)).bind fun _ =>
    (Composed.name _).bind fun _ => (Composed.expect (by simp)).bind fun _ =>
    (statements_composed entry n).statements.braces.bind fun _ => (Composed.emit _).bind fun _ => .pure _

theorem opening_composed (n : Nat) : Composed (opening n) :=
  (Composed.emit _).bind fun _ => (Composed.emit _).bind fun _ => Composed.here.bind fun entry =>
    (function_composed entry n).bind fun _ => .pure _

theorem program_composed (n : Nat) : Composed (program n) :=
  Composed.advance.bind fun _ => (opening_composed n).bind fun _ =>
    (Composed.expect (by simp)).bind fun _ => .pure _

end Rules

end Solo
