import Mathlib.Data.Nat.Find
import Solo.Proofs.Compilation

/-! How much room a source takes. An action that is given enough room does not run out of it, whether
it goes on to succeed or to fail; so for every source there is a least capacity at which compiling does
not overflow. Below it compiling overflows, and from it on the result is always the same. -/

namespace Solo

open Draft

/-- There is a capacity at which `x` does not run out of room. -/
def RoomExists {α : Type} (x : Drafting α) (d : Draft) : Prop :=
  ∃ c, d.capacity ≤ c ∧ ∀ k d', x (d.withCapacity c) ≠ .error (.codeOverflow k) d'

namespace RoomExists

variable {α β : Type} {x : Drafting α} {f : α → Drafting β}

theorem of_never (h : ∀ d k d', x d ≠ .error (.codeOverflow k) d') (d : Draft) : RoomExists x d :=
  ⟨d.capacity, Nat.le_refl _, h _⟩

theorem emit (i : Instruction) (d : Draft) : RoomExists (Draft.emit i) d := by
  have hroom := Nat.le_max_right d.capacity (d.size + i.width)
  refine ⟨max d.capacity (d.size + i.width), Nat.le_max_left _ _, fun k d' h => ?_⟩
  have hok := emit_eq_ok (d := d.withCapacity (max d.capacity (d.size + i.width))).2 ⟨hroom, rfl⟩
  rw [hok] at h
  cases h

/-- With the room that the second action wants, the first does what it did before. -/
theorem bind (hscales : Scales x) (hx : ∀ d, RoomExists x d) (hf : ∀ a d, RoomExists (f a) d) (d : Draft) :
    RoomExists (x >>= f) d := by
  obtain ⟨c, hc, hnone⟩ := hx d
  cases h : x (d.withCapacity c) with
  | error e d₁ =>
    refine ⟨c, hc, fun k d' hk => ?_⟩
    rw [bind_of_error h] at hk
    cases hk
    exact hnone k d₁ h
  | ok a d₁ =>
    have hcapacity : d₁.capacity = c := hscales.keeps h
    obtain ⟨c', hc', hnone'⟩ := hf a d₁
    rw [hcapacity] at hc'
    refine ⟨c', Nat.le_trans hc hc', fun k d' hk => hnone' k d' ?_⟩
    obtain ⟨d₂, hover⟩ | hsame := hscales.widens (d.withCapacity c) hc'
    · exact absurd hover (hnone _ _)
    · rw [h] at hsame
      rw [← hk]
      exact (bind_of_ok hsame).symm

end RoomExists

namespace Composed

variable {α : Type} {x : Drafting α}

theorem roomExists (h : Composed x) (d : Draft) : RoomExists x d := by
  induction h generalizing d with
  | pure a => exact .of_never (fun _ _ _ h => by cases h) d
  | bind hx _ ihx ihf => exact .bind hx.scales ihx ihf d
  | look _ hf ihf =>
    exact .bind .token (.of_never fun _ _ _ h => by cases h) ihf d
  | here => exact .of_never (fun _ _ _ h => by cases h) d
  | advance =>
    refine .of_never (fun d k d' h => ?_) d
    unfold Draft.advance at h
    split at h <;> cases h
  | reject expected => exact .of_never (fun _ _ _ h => by cases h) d
  | emit i => exact .emit i d
  | emitJump i =>
    have hindex : RoomExists (Draft.emit i >>= fun _ => Pure.pure d.code.size) d :=
      .bind (.emit i) (.emit i) (fun _ => .of_never fun _ _ _ h => by cases h) d
    exact hindex
  | patch index => exact .of_never (fun _ _ _ h => by cases h) d

/-- An overflow names the capacity that it ran out of. -/
theorem overflow_eq (h : Composed x) {d d' : Draft} {k : Nat}
    (herror : x d = .error (.codeOverflow k) d') : k = d.capacity := by
  obtain ⟨c, hc, hnone⟩ := h.roomExists d
  obtain ⟨d₁, hover⟩ | hsame := h.scales.widens d hc
  · rw [herror] at hover
    cases hover
    rfl
  · -- else it would be met however much room there is
    rw [herror] at hsame
    exact absurd hsame (hnone _ _)

end Composed

/-- There is room for all that is written when `source` is compiled. -/
def Roomy (source : String) (c : Nat) : Prop := ∀ k, compile source c ≠ .error (.codeOverflow k)

variable {source : String} {c c' : Nat} {b : Bytecode}

theorem exists_roomy (source : String) : ∃ c, Roomy source c := by
  obtain ⟨c, -, hnone⟩ := (Rules.program_composed _).roomExists (.start (.ofSource source) 0)
  refine ⟨c, fun k h => ?_⟩
  obtain ⟨d', hd'⟩ := compile_eq_error.1 h
  exact hnone k d' hd'

theorem compile_of_not_roomy (h : ¬ Roomy source c) : compile source c = .error (.codeOverflow c) := by
  obtain ⟨k, hk⟩ := Classical.not_forall_not.1 h
  obtain ⟨d', hd'⟩ := compile_eq_error.1 hk
  obtain rfl : k = c := (Rules.program_composed _).overflow_eq hd'
  exact hk

theorem Roomy.compile_eq (h : Roomy source c) (hc : c ≤ c') : compile source c' = compile source c := by
  cases hresult : compile source c with
  | ok b => exact compile_widen hresult hc
  | error error =>
    exact compile_widen_error hresult (fun k hk => h k (hk ▸ hresult)) hc

/-- The words that come out are all the room that is needed. -/
theorem compile_wordCount (h : compile source c = .ok b) : compile source b.wordCount = .ok b := by
  obtain ⟨ts, symbols, hlexes, hderives⟩ := derives_of_compile h
  obtain ⟨p, hp⟩ := (sentence_iff_derives hlexes).2 hderives
  have hb := eq_of_compile h hlexes hp
  subst hb
  rw [← hp] at hlexes
  exact compile_of_tree hlexes (Nat.le_refl _)

/-- Below a certain capacity compiling overflows, and from it on the result is one and the same; if
that is code, the capacity is the number of its words. -/
theorem compile_capacity_threshold (source : String) : ∃ w result,
    (∀ k, result ≠ .error (.codeOverflow k)) ∧
    (∀ c, c < w → compile source c = .error (.codeOverflow c)) ∧
    (∀ c, w ≤ c → compile source c = result) ∧
    ∀ b, result = .ok b → w = b.wordCount ∧ b.wordCount = b.words.length ∧
      ∀ c b', compile source c = .ok b' ↔ b' = b ∧ b.words.length ≤ c := by
  classical
  obtain ⟨w, hroomy, hleast⟩ : ∃ w, Roomy source w ∧ ∀ c < w, ¬ Roomy source c :=
    ⟨Nat.find (exists_roomy source), Nat.find_spec _, fun _ => Nat.find_min _⟩
  have hbelow (c) (hc : c < w) := compile_of_not_roomy (hleast c hc)
  have habove (c) (hc : w ≤ c) := hroomy.compile_eq hc
  refine ⟨w, compile source w, hroomy, hbelow, habove, fun b hb => ?_⟩
  have hle : b.wordCount ≤ w := wordCount_le hb
  have hge : w ≤ b.wordCount := Nat.le_of_not_lt fun hlt => by
    have hover := hbelow _ hlt
    rw [compile_wordCount hb] at hover
    cases hover
  refine ⟨Nat.le_antisymm hge hle, b.length_words.symm, fun c b' => ?_⟩
  rw [b.length_words]
  constructor
  · intro h
    have hc : w ≤ c := Nat.le_of_not_lt fun hlt => by
      rw [hbelow c hlt] at h
      cases h
    rw [habove c hc, hb] at h
    exact ⟨(Except.ok.inj h).symm, Nat.le_trans hle hc⟩
  · rintro ⟨rfl, hc⟩
    rw [habove c (Nat.le_trans hge hc), hb]

/-- The misplaced semicolon is reported as soon as the code before it fits. -/
theorem compile_capacity_threshold_misplaced :
    (∀ c, c < 5 → compile "f(n) \x7b n = n + ; \x7d" c = .error (.codeOverflow c)) ∧
    ∀ c, 5 ≤ c → compile "f(n) \x7b n = n + ; \x7d" c =
      .error (.misplaced ⟨1, 16⟩ .expression (.punct .semicolon)) := by
  have hfour := eq_error_of_failure? (show failure? (compile "f(n) \x7b n = n + ; \x7d" 4) =
    some (.codeOverflow 4) by decide +kernel)
  have hfive := eq_error_of_failure? (show failure? (compile "f(n) \x7b n = n + ; \x7d" 5) =
    some (.misplaced ⟨1, 16⟩ .expression (.punct .semicolon)) by decide +kernel)
  obtain ⟨w, result, hresult, hbelow, habove, -⟩ :=
    compile_capacity_threshold "f(n) \x7b n = n + ; \x7d"
  have hw : w = 5 := by
    refine Nat.le_antisymm (Nat.le_of_not_lt fun hlt => ?_) (Nat.lt_of_not_le fun hle => ?_)
    · rw [hbelow 5 hlt] at hfive
      cases hfive
    · rw [habove 4 hle] at hfour
      exact hresult 4 hfour
  subst hw
  refine ⟨hbelow, fun c hc => ?_⟩
  rw [habove c hc, ← habove 5 (Nat.le_refl 5), hfive]

end Solo
