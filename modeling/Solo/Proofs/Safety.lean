import Solo.Proofs.Frames

/-! Compiled code never goes wrong: whatever the argument and however far the program has run, the
machine is at an instruction or at the end of the code, its stack is a chain of frames, and the next
step succeeds or fails for want of room, at a division by zero, or where the function ends without a
return. -/

namespace Solo

open Bytecode (bodyAddr)
open Machine Grammar

variable {b : Bytecode} {body : List Instruction} {m : Machine}

/-- A machine that is made ready stands at the call of the function. -/
theorem outside_reset {limits : Limits} (hstack : limits.stack ≤ Word.sizeLimit) {arg : Word}
    {m₀ : Machine} (h : reset arg (.load b limits) = .ok () m₀) :
    Outside b m₀ ∧ m₀.ip = 0 ∧ m₀.halted = false ∧ m₀.capacity = limits.stack := by
  rw [reset_eq] at h
  split at h
  · next hroom =>
    cases h
    exact ⟨⟨⟨rfl, rfl, rfl, hstack⟩, rfl, rfl, hroom, .inl ⟨rfl, rfl⟩⟩, rfl, rfl, rfl⟩
  · cases h

theorem framed_reset {limits : Limits} (hstack : limits.stack ≤ Word.sizeLimit) {arg : Word}
    {m₀ : Machine} (h : reset arg (.load b limits) = .ok () m₀) : Framed b body m₀ :=
  .inl (outside_reset hstack h).1

theorem Framed.ip_addressed (hb : b.WellFormed body) (h : Framed b body m) :
    (∃ i, (m.ip, i) ∈ b.addressed) ∨ m.ip = b.wordCount := by
  rcases h with h | ⟨pre, post, h⟩
  · left
    rw [Bytecode.addressed, hb.instructions]
    rcases h.ip with ⟨hip, -⟩ | hip <;> rw [hip]
    · exact ⟨_, List.mem_cons_self⟩
    · exact ⟨_, List.mem_cons_of_mem _ List.mem_cons_self⟩
  · cases post with
    | nil =>
      right
      exact h.ip_of_nil hb
    | cons i post =>
      left
      rw [h.ip]
      exact ⟨i, hb.mem_addressed h.split⟩

theorem Framed.wellFramed (hb : b.WellFormed body) (h : Framed b body m) :
    (m.fp = 0 ∧ m.sp = 1 ∧ (m.ip = 0 ∨ m.ip = 2)) ∨ 3 ≤ m.fp ∧ WellFramed b m.stack m.fp m.sp := by
  rcases h with h | ⟨pre, post, h⟩
  · exact .inl ⟨h.fp, h.sp, h.ip.imp_left And.left⟩
  · have hsp := h.sp
    have hroom := h.room
    have hcapacity := h.holds.capacity
    exact .inr ⟨h.chain.three_le, h.chain.wellFramed hb (by omega) (by omega)⟩

theorem Framed.halted (h : Framed b body m) (hm : m.halted = true) :
    m.ip = 2 ∧ m.sp = 1 ∧ m.fp = 0 ∧ ∃ result, read 0 m = .ok result m ∧ m.live = [result] := by
  rcases h with h | ⟨pre, post, h⟩
  · have hroom := h.room
    rw [h.sp] at hroom
    have hip : m.ip = 2 := by
      rcases h.ip with ⟨-, hrunning⟩ | hip
      · rw [hrunning] at hm
        cases hm
      · exact hip
    refine ⟨hip, h.sp, h.fp, m.stack.get 0, read_eq hroom, ?_⟩
    rw [live, h.sp]
    rfl
  · rw [h.running] at hm
    cases hm

/-- Compiled code never goes wrong. -/
theorem compiled_code_safe {source : String} {limits : Limits} {arg : Word} {m₀ m : Machine}
    (hcode : limits.code ≤ Word.sizeLimit) (hstack : limits.stack ≤ Word.sizeLimit)
    (hcompile : compile source limits.code = .ok b)
    (hreset : reset arg (.load b limits) = .ok () m₀) (hreaches : m₀.Reaches m) :
    ((∃ i, (m.ip, i) ∈ b.addressed) ∨ m.ip = b.wordCount) ∧
    ((m.fp = 0 ∧ m.sp = 1 ∧ (m.ip = 0 ∨ m.ip = 2)) ∨ 3 ≤ m.fp ∧ WellFramed b m.stack m.fp m.sp) ∧
    ((∃ m', step m = .ok () m') ∨ ∃ fault m', step m = .error fault m' ∧ fault.ip = m.ip ∧
      (fault.cause = .divisionByZero ∨ fault.cause = .stackOverflow m.capacity ∨
        fault.cause = .illegal .noReturn ∧ m.ip = b.wordCount)) ∧
    (m.halted = true → m.ip = 2 ∧ m.sp = 1 ∧ m.fp = 0 ∧
      ∃ result, read 0 m = .ok result m ∧ m.live = [result]) := by
  obtain ⟨body, hb⟩ := exists_wellFormed hcompile hcode
  have hframed := hreaches.framed hb (framed_reset hstack hreset)
  refine ⟨hframed.ip_addressed hb, hframed.wellFramed hb, ?_, hframed.halted⟩
  have hstep := hframed.step hb
  cases hresult : step m with
  | ok _ m' => exact .inl ⟨m', rfl⟩
  | error fault m' =>
    rw [hresult] at hstep
    exact .inr ⟨fault, m', rfl, hstep⟩

theorem compiled_code_safe_nested : ∃ b m₀ m,
    compile "f(n) \x7b return n * f(n - 1); \x7d" 64 = .ok b ∧
      reset 5 (.load b ⟨64, 64⟩) = .ok () m₀ ∧ m₀.Reaches m ∧
      m.fp = 9 ∧ WellFramed b m.stack m.fp m.sp := by
  have hrun : ((compile "f(n) \x7b return n * f(n - 1); \x7d" 64).toOption.bind fun b =>
      (do reset 5; step; step; step; step; step; step; return (← get).fp : Action Nat).run'
        (.load b ⟨64, 64⟩)) = some 9 := by
    decide +kernel
  obtain ⟨b, hb, hrun⟩ := Option.bind_eq_some_iff.1 hrun
  have hcompile := eq_ok_of_toOption hb
  obtain ⟨m, hsteps⟩ := run'_eq_some.1 hrun
  obtain ⟨_, m₀, hreset, hsteps⟩ := bind_eq_ok.1 hsteps
  obtain ⟨_, m₁, h₁, hsteps⟩ := bind_eq_ok.1 hsteps
  obtain ⟨_, m₂, h₂, hsteps⟩ := bind_eq_ok.1 hsteps
  obtain ⟨_, m₃, h₃, hsteps⟩ := bind_eq_ok.1 hsteps
  obtain ⟨_, m₄, h₄, hsteps⟩ := bind_eq_ok.1 hsteps
  obtain ⟨_, m₅, h₅, hsteps⟩ := bind_eq_ok.1 hsteps
  obtain ⟨_, m₆, h₆, hget⟩ := bind_eq_ok.1 hsteps
  rw [get_bind] at hget
  obtain ⟨hfp, rfl⟩ := pure_eq_ok.1 hget
  have hreaches : m₀.Reaches m₆ :=
    .step (.step (.step (.step (.step (.step .refl h₁) h₂) h₃) h₄) h₅) h₆
  obtain ⟨-, hframes, -⟩ := compiled_code_safe
    (show (⟨64, 64⟩ : Limits).code ≤ Word.sizeLimit by decide) (by decide) hcompile hreset hreaches
  refine ⟨b, m₀, m₆, hcompile, hreset, hreaches, hfp, ?_⟩
  rcases hframes with ⟨hzero, -⟩ | ⟨-, hwell⟩
  · rw [hfp] at hzero
    cases hzero
  · exact hwell

end Solo
