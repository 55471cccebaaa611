import Solo.Proofs.Jumps
import Solo.Proofs.Safety

/-! How many operands a call has on the stack depends on nothing but the place in the code: the ways that
lead to a place, through both parts of a conditional, round a loop or back from a call, all leave the
same number there. Between statements there are none. -/

namespace Solo

open Bytecode (bodyAddr)
open Instruction (settle)
open Machine Grammar

/-- How many operands there are `offset` words into the code, if there are `d` before its first. -/
def depthAt : (d : Nat) → List Instruction → (offset : Nat) → Nat
  | d, [], _ => d
  | d, i :: is, offset => if offset = 0 then d else depthAt (settle d i) is (offset - i.width)

theorem depthAt_width (d : Nat) (pre post : List Instruction) :
    depthAt d (pre ++ post) (width pre) = depth d pre := by
  induction pre generalizing d with
  | nil => cases post <;> rfl
  | cons i pre ih =>
    have hpos := i.width_pos
    rw [List.cons_append, width_cons, depthAt, if_neg (by omega), Nat.add_sub_cancel_left, ih]
    rfl

/-- How many operands there are at an address of the code. Before the body it is the argument alone. -/
def operandsAt (body : List Instruction) (addr : Nat) : Nat :=
  if addr < bodyAddr then 1 else depthAt 0 body (addr - bodyAddr)

variable {b : Bytecode} {body : List Instruction}

theorem operandsAt_width {pre post : List Instruction} (hbody : body = pre ++ post) :
    operandsAt body (bodyAddr + width pre) = depth 0 pre := by
  rw [operandsAt, if_neg (by omega), Nat.add_sub_cancel_left, hbody, depthAt_width]

/-- Where a part stands with no operands before it, there are none. -/
theorem StandsAt.operandsAt_eq_zero {addr : Nat} {part : List Instruction} (h : StandsAt body addr part) :
    operandsAt body addr = 0 := by
  obtain ⟨pre, post, hbody, rfl, hdepth, -⟩ := h
  rw [operandsAt_width (hbody.trans (List.append_assoc pre part post)), hdepth]

theorem Framed.sp_eq {m : Machine} (h : Framed b body m) (hfp : 0 < m.fp) :
    m.sp = m.fp + b.frameSize + operandsAt body m.ip := by
  rcases h with h | ⟨pre, post, h⟩
  · exact absurd h.fp (Nat.ne_of_gt hfp)
  · rw [h.sp, h.ip, operandsAt_width h.split]

/-- There are enough operands for every instruction. -/
theorem Bytecode.WellFormed.pops_le (h : b.WellFormed body) {addr : Nat} {i : Instruction}
    (hi : (addr, i) ∈ b.addressed) : i.pops ≤ operandsAt body addr := by
  rw [Bytecode.addressed, h.instructions] at hi
  rcases List.mem_cons.1 hi with hcall | hi
  · obtain ⟨rfl, rfl⟩ := Prod.mk.inj hcall
    exact Nat.le_refl 1
  · rcases List.mem_cons.1 hi with hstop | hi
    · obtain ⟨rfl, rfl⟩ := Prod.mk.inj hstop
      exact Nat.zero_le 1
    · obtain ⟨pre, post, hbody, rfl⟩ := exists_of_mem_addressedFrom hi
      change i.pops ≤ operandsAt body (bodyAddr + width pre)
      rw [operandsAt_width hbody]
      exact (h.legal hbody).pops

/-- The number of operands at each place of compiled code is fixed when it is compiled. There are none
before a statement and at the end of the body, and always as many as the instruction takes. The states
meant are those that successful steps lead to; a step that fails may have taken operands already. -/
theorem operand_depth_static {source : String} {capacity : Nat}
    (hcode : capacity ≤ Word.sizeLimit) (hcompile : compile source capacity = .ok b) :
    ∃ ts symbols, (Scanner.ofSource source).Lexes ts symbols ∧ Sentence (slotIn ts) ts ∧
      ∃ d : Nat → Nat,
        (∀ (limits : Limits) (arg : Word) (m₀ m : Machine), limits.stack ≤ Word.sizeLimit →
          reset arg (.load b limits) = .ok () m₀ → m₀.Reaches m → 0 < m.fp →
          m.sp = m.fp + b.frameSize + d m.ip) ∧
        d 3 = 0 ∧ d (b.wordCount - 1) = 0 ∧
        (∀ p : Program, p.tokens (slotIn ts) = ts → ∀ addr s, (addr, s) ∈ p.places → d addr = 0) ∧
        ∀ addr i, (addr, i) ∈ b.addressed → i.pops ≤ d addr := by
  obtain ⟨ts, symbols, hlexes, hderives⟩ := derives_of_compile hcompile
  have hsentence := (sentence_iff_derives hlexes).2 hderives
  obtain ⟨p, hp⟩ := hsentence
  have hb := wellFormed_of_compile hcompile hcode hlexes hp
  have hlast : b.wordCount - 1 = bodyAddr + width (p.body.code (slotIn ts) bodyAddr) := by
    rw [hb.wordCount_eq, width_append]
    rfl
  refine ⟨ts, symbols, hlexes, ⟨p, hp⟩, operandsAt (p.body.code (slotIn ts) bodyAddr ++ [.nop]),
    fun limits arg m₀ m hstack hreset hreaches hfp => ?_, ?_, ?_, fun p' hp' addr s hplace => ?_,
    fun addr i => hb.pops_le⟩
  · exact (hreaches.framed hb (framed_reset hstack hreset)).sp_eq hfp
  · exact operandsAt_width (List.nil_append _).symm
  · rw [hlast, operandsAt_width rfl, Block.depth_code]
  · -- whichever tree the source is read as, its code is the body
    have hb' := wellFormed_of_compile hcompile hcode hlexes hp'
    have hbodies := hb.instructions.symm.trans hb'.instructions
    rw [(List.cons.inj (List.cons.inj hbodies).2).2]
    exact (p'.standsAt hplace).operandsAt_eq_zero

/-- Here the machine has gone round the loop and come back from the call in the middle of a sum. -/
theorem operand_depth_static_loop : ∃ b m₀ m, ∃ d : Nat → Nat,
    compile "f(n) \x7b while (n > 0) \x7b if (n == 1) return n + f(n - 1) * 2; else n = n - 1; \x7d return n; \x7d"
      64 = .ok b ∧
    reset 2 (.load b ⟨64, 64⟩) = .ok () m₀ ∧ m₀.Reaches m ∧ m.ip = 24 ∧ m.fp = 3 ∧
    m.sp = 3 + b.frameSize + d 24 ∧ d 3 = 0 ∧ ∀ addr i, (addr, i) ∈ b.addressed → i.pops ≤ d addr := by
  have hrun : ((compile
      "f(n) \x7b while (n > 0) \x7b if (n == 1) return n + f(n - 1) * 2; else n = n - 1; \x7d return n; \x7d"
        64).toOption.bind fun b =>
      (do reset 2; stepFor 28; return ((← get).ip, (← get).fp) : Action (Nat × Nat)).run'
        (.load b ⟨64, 64⟩)) = some (24, 3) := by
    decide +kernel
  obtain ⟨b, hb, hrun⟩ := Option.bind_eq_some_iff.1 hrun
  have hcompile := eq_ok_of_toOption hb
  obtain ⟨_, hrun⟩ := run'_eq_some.1 hrun
  obtain ⟨_, m₀, hreset, hrun⟩ := bind_eq_ok.1 hrun
  obtain ⟨_, m, hsteps, hget⟩ := bind_eq_ok.1 hrun
  obtain ⟨hregisters, -⟩ := pure_eq_ok.1 hget
  obtain ⟨hip, hfp⟩ := Prod.mk.inj hregisters
  have hreaches := reaches_of_stepFor hsteps
  obtain ⟨ts, symbols, -, -, d, hdepth, hstart, -, -, hpops⟩ := operand_depth_static (by decide) hcompile
  have hsp := hdepth ⟨64, 64⟩ 2 m₀ m (by decide) hreset hreaches (by omega)
  rw [hip, hfp] at hsp
  exact ⟨b, m₀, m, d, hcompile, hreset, hreaches, hip, hfp, hsp, hstart, hpops⟩

end Solo
