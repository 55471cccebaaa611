import Solo.Compile.Program
import Solo.Proofs.Composition
import Solo.Proofs.Layout

/-! The capacity decides only whether the code fits. What is written stays within it, and with more
room an action does the same, unless it has run out of room before. -/

namespace Solo

open Draft

namespace Draft

def withCapacity (c : Nat) (d : Draft) : Draft := { d with capacity := c }

/-- The size is that of the code, and within the capacity. -/
structure Fits (d : Draft) : Prop where
  size_eq : d.size = width d.code.toList
  size_le : d.size ≤ d.capacity

end Draft

/-- The same outcome, with capacity `c` in the draft that is left. -/
def widened {α : Type} (c : Nat) :
    EStateM.Result CompileError Draft α → EStateM.Result CompileError Draft α
  | .ok a d => .ok a (d.withCapacity c)
  | .error e d => .error e (d.withCapacity c)

/-- The action keeps the capacity and stays within it, and with more of it does the same or had run
out. -/
structure Scales {α : Type} (x : Drafting α) : Prop where
  keeps : ∀ {d a d'}, x d = .ok a d' → d'.capacity = d.capacity
  fits : ∀ {d a d'}, x d = .ok a d' → d.Fits → d'.Fits
  widens : ∀ (d : Draft) {c : Nat}, d.capacity ≤ c →
    (∃ d', x d = .error (.codeOverflow d.capacity) d') ∨ x (d.withCapacity c) = widened c (x d)

namespace Scales

variable {α β : Type} {x : Drafting α} {f : α → Drafting β}

theorem bind (hx : Scales x) (hf : ∀ a, Scales (f a)) : Scales (x >>= f) where
  keeps h := by
    obtain ⟨a, d₁, h₁, h₂⟩ := bind_eq_ok.1 h
    rw [(hf a).keeps h₂, hx.keeps h₁]
  fits h hd := by
    obtain ⟨a, d₁, h₁, h₂⟩ := bind_eq_ok.1 h
    exact (hf a).fits h₂ (hx.fits h₁ hd)
  widens d c hc := by
    cases h : x d with
    | error e d₁ =>
      obtain ⟨d', hd'⟩ | hw := hx.widens d hc
      · exact Or.inl ⟨d', bind_of_error hd'⟩
      · rw [h] at hw
        exact Or.inr (by rw [bind_of_error h, bind_of_error hw]; rfl)
    | ok a d₁ =>
      obtain ⟨d', hd'⟩ | hw := hx.widens d hc
      · rw [h] at hd'
        cases hd'
      · rw [h] at hw
        rw [bind_of_ok h, bind_of_ok hw]
        have hcap := hx.keeps h
        rw [← hcap] at hc ⊢
        exact (hf a).widens d₁ hc

/-- An action that writes nothing and does not look at the room left. -/
theorem of_eq (h : ∀ d c, x (d.withCapacity c) = widened c (x d))
    (hsame : ∀ {d a d'}, x d = .ok a d' → d'.capacity = d.capacity ∧ d'.size = d.size ∧
      width d'.code.toList = width d.code.toList) : Scales x where
  keeps hd := (hsame hd).1
  fits hd hfits := by
    obtain ⟨hcapacity, hsize, hwidth⟩ := hsame hd
    exact ⟨by rw [hsize, hwidth, hfits.size_eq], by rw [hsize, hcapacity]; exact hfits.size_le⟩
  widens d c _ := Or.inr (h d c)

theorem pure (a : α) : Scales (Pure.pure a : Drafting α) :=
  of_eq (fun _ _ => rfl) fun h => by cases h; exact ⟨rfl, rfl, rfl⟩

theorem token : Scales Draft.token :=
  of_eq (fun _ _ => rfl) fun h => by cases h; exact ⟨rfl, rfl, rfl⟩

theorem here : Scales Draft.here :=
  of_eq (fun _ _ => rfl) fun h => by cases h; exact ⟨rfl, rfl, rfl⟩

theorem reject (expected : Expected) : Scales (Draft.reject expected : Drafting α) :=
  of_eq (fun _ _ => rfl) fun h => absurd h reject_ne_ok

theorem patch (index : Nat) : Scales (Draft.patch index) :=
  of_eq (fun _ _ => rfl) fun h => by
    cases h
    exact ⟨rfl, rfl, by rw [Array.toList_modify, width_modify_retarget]⟩

theorem advance : Scales Draft.advance := by
  refine of_eq (fun d c => ?_) fun {d _ d'} h => ?_
  · obtain ⟨ahead, rest, ending, capacity, code, size, trace⟩ := d
    cases rest with
    | cons l rest => rfl
    | nil => cases ending <;> rfl
  · unfold Draft.advance at h
    split at h <;> cases h <;> exact ⟨rfl, rfl, rfl⟩

theorem emit (i : Instruction) : Scales (Draft.emit i) where
  keeps h := by
    obtain ⟨-, rfl⟩ := emit_eq_ok.1 h
    rfl
  fits h hfits := by
    obtain ⟨hroom, rfl⟩ := emit_eq_ok.1 h
    exact ⟨by simp [hfits.size_eq], hroom⟩
  widens d c hc := by
    by_cases h : d.size + i.width ≤ d.capacity
    · right
      unfold Draft.emit
      rw [if_pos h, if_pos (show (d.withCapacity c).size + i.width ≤ (d.withCapacity c).capacity from
        Nat.le_trans h hc)]
      rfl
    · left
      unfold Draft.emit
      rw [if_neg h]
      exact ⟨d, rfl⟩

theorem emitJump (i : Instruction) : Scales (Draft.emitJump i) where
  keeps {d _ _} h := ((emit i).bind fun _ => pure d.code.size).keeps h
  fits {d _ _} h := ((emit i).bind fun _ => pure d.code.size).fits h
  widens d _ hc := ((emit i).bind fun _ => pure d.code.size).widens d hc

end Scales

theorem Composed.scales {α : Type} {x : Drafting α} (h : Composed x) : Scales x := by
  induction h with
  | pure a => exact .pure a
  | bind _ _ ihx ihf => exact ihx.bind ihf
  | look _ _ ihf => exact Scales.token.bind ihf
  | here => exact .here
  | advance => exact .advance
  | reject expected => exact .reject expected
  | emit i => exact .emit i
  | emitJump i => exact .emitJump i
  | patch index => exact .patch index

theorem Rules.program_scales (n : Nat) : Scales (program n) := (program_composed n).scales

theorem compile_eq_ok {source : String} {capacity : Nat} {b : Bytecode} :
    compile source capacity = .ok b ↔
      ∃ entry param d,
        Rules.program (m := Drafting) (4 * (TokenStream.ofSource source).lexemes.length + 8)
          (.start (.ofSource source) capacity) = .ok (entry, param) d ∧
        b = ⟨d.code.toList, entry, param, (TokenStream.ofSource source).symbols⟩ := by
  unfold compile Compilation.ofSource
  dsimp only
  split
  · next entry param d h =>
    rw [h]
    exact ⟨fun hb => ⟨entry, param, d, rfl, (Except.ok.inj hb).symm⟩,
      fun ⟨_, _, _, hr, hb⟩ => by cases hr; rw [hb]⟩
  · next e d h => simp [h]

theorem compile_eq_error {source : String} {capacity : Nat} {error : CompileError} :
    compile source capacity = .error error ↔
      ∃ d, Rules.program (m := Drafting) (4 * (TokenStream.ofSource source).lexemes.length + 8)
        (.start (.ofSource source) capacity) = .error error d := by
  unfold compile Compilation.ofSource
  dsimp only
  split
  · next h => simp [h]
  · next e d h =>
    rw [h]
    exact ⟨fun he => ⟨d, by rw [Except.error.inj he]⟩, fun ⟨_, he⟩ => by cases he; rfl⟩

/-- What compiles in `capacity` words compiles to the same in more. -/
theorem compile_widen {source : String} {capacity c : Nat} {b : Bytecode}
    (h : compile source capacity = .ok b) (hc : capacity ≤ c) : compile source c = .ok b := by
  obtain ⟨entry, param, d, hd, rfl⟩ := compile_eq_ok.1 h
  refine compile_eq_ok.2 ⟨entry, param, d.withCapacity c, ?_, rfl⟩
  obtain ⟨d', hd'⟩ | hw := (Rules.program_scales _).widens (.start (.ofSource source) capacity) hc
  · rw [hd] at hd'
    cases hd'
  · rw [hd] at hw
    exact hw

/-- An error other than a lack of room stays with more of it. -/
theorem compile_widen_error {source : String} {capacity c : Nat} {error : CompileError}
    (h : compile source capacity = .error error) (hroom : ∀ c, error ≠ .codeOverflow c)
    (hc : capacity ≤ c) : compile source c = .error error := by
  obtain ⟨d, hd⟩ := compile_eq_error.1 h
  refine compile_eq_error.2 ⟨d.withCapacity c, ?_⟩
  obtain ⟨d', hd'⟩ | hw := (Rules.program_scales _).widens (.start (.ofSource source) capacity) hc
  · rw [hd] at hd'
    cases hd'
    exact absurd rfl (hroom _)
  · rw [hd] at hw
    exact hw

theorem wordCount_le {source : String} {capacity : Nat} {b : Bytecode}
    (h : compile source capacity = .ok b) : b.wordCount ≤ capacity := by
  obtain ⟨_, _, d, hd, rfl⟩ := compile_eq_ok.1 h
  have hfits := (Rules.program_scales _).fits hd ⟨rfl, Nat.zero_le _⟩
  have hcapacity : d.capacity = capacity := (Rules.program_scales _).keeps hd
  calc width d.code.toList
    _ = d.size := hfits.size_eq.symm
    _ ≤ capacity := hcapacity ▸ hfits.size_le

end Solo
