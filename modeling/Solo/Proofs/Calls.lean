import Solo.Proofs.Faults
import Solo.Proofs.Safety

/-! A call leaves its caller alone. While the called function runs, whatever it calls itself, its stack
stays above the words of the caller, and only the return that ends the call takes it down again: to the
place behind the call, with the caller's frame and with the result in the place of the argument. -/

namespace Solo

open Bytecode (bodyAddr)
open Machine

namespace Machine

variable {α β : Type} {m m₁ m' : Machine} {x : Action α} {f : α → Action β}

theorem looking_eq_ok (hx : Looks x) {b : β} (h : (x >>= f) m = .ok b m') :
    ∃ a, x m = .ok a m ∧ f a m = .ok b m' := by
  obtain ⟨a, m₁, hok, hrest⟩ := bind_eq_ok.1 h
  obtain rfl := hx.eq_of_ok hok
  exact ⟨a, hok, hrest⟩

theorem of_saved {value : Nat} {w : Word} (h : saved value m = .ok w m₁) :
    Word.toNat? w = some value := by
  by_cases hvalue : value < Word.sizeLimit
  · rw [saved_eq hvalue] at h
    cases h
    exact Word.toNat?_ofSize hvalue
  · rw [saved, Word.ofNat?, if_neg hvalue] at h
    cases h

theorem of_restored {w : Word} {value : Nat} (h : restored w m = .ok value m₁) :
    Word.toNat? w = some value := by
  cases hw : Word.toNat? w with
  | some n =>
    rw [restored, hw] at h
    cases h
    rfl
  | none =>
    rw [restored, hw] at h
    cases h

/-- A call from `m` that is to come back to `next` has laid a frame above the stack. -/
structure Enters (next : Nat) (m m' : Machine) : Prop where
  pos : 0 < m.sp
  sp : m'.sp = m.sp + 2 + m.frameSize
  fp : m'.fp = m.sp + 2
  words : ∀ j < m.sp, m'.stack.get j = m.stack.get j
  next : Word.toNat? (m'.stack.get m.sp) = some next
  caller : Word.toNat? (m'.stack.get (m.sp + 1)) = some m.fp

theorem enters_of_call {target next : Nat} (h : call target next m = .ok () m') : Enters next m m' := by
  unfold call at h
  rw [get_bind, get_bind] at h
  obtain ⟨_, hpos, h⟩ := looking_eq_ok (looks_ensure _ _) h
  obtain ⟨_, -, h⟩ := looking_eq_ok (looks_ensureRoom _) h
  obtain ⟨w, hw, h⟩ := looking_eq_ok (looks_saved _) h
  rw [get_bind] at h
  obtain ⟨w', hw', h⟩ := looking_eq_ok (looks_saved _) h
  obtain ⟨_, m₁, h₁, h⟩ := bind_eq_ok.1 h
  obtain ⟨-, rfl⟩ := write_eq_ok.1 h₁
  obtain ⟨_, m₂, h₂, h⟩ := bind_eq_ok.1 h
  obtain ⟨-, rfl⟩ := write_eq_ok.1 h₂
  obtain ⟨_, m₃, h₃, h⟩ := bind_eq_ok.1 h
  cases h₃
  obtain ⟨arg, -, h⟩ := looking_eq_ok (looks_read _) h
  rw [get_bind] at h
  obtain ⟨_, m₄, h₄, h⟩ := bind_eq_ok.1 h
  obtain ⟨-, rfl⟩ := write_eq_ok.1 h₄
  cases h
  -- the variables are all above the two saved words
  have hbelow : ∀ j < m.sp + 2, ((((m.stack.set m.sp w).set (m.sp + 1) w').clear (m.sp + 2)
      m.frameSize).set (m.sp + 2 + m.paramSlot) arg).get j =
        ((m.stack.set m.sp w).set (m.sp + 1) w').get j := by
    intro j hj
    rw [Stack.get_set, if_neg (by omega), Stack.get_clear, if_neg (by omega)]
  refine ⟨Nat.pos_of_ne_zero (of_ensure hpos), rfl, rfl, fun j hj => ?_, ?_, ?_⟩
  · refine (hbelow j (by omega)).trans ?_
    rw [Stack.get_set, if_neg (by omega), Stack.get_set, if_neg (by omega)]
  · refine (congrArg Word.toNat? (hbelow m.sp (by omega))).trans ?_
    rw [Stack.get_set, if_neg (by omega), Stack.get_set, if_pos rfl, of_saved hw]
  · refine (congrArg Word.toNat? (hbelow (m.sp + 1) (by omega))).trans ?_
    rw [Stack.get_set, if_pos rfl, of_saved hw']

/-- A return from `m` has dropped the frame and found in it where to go. -/
structure Exits (m m' : Machine) : Prop where
  three_le : 3 ≤ m.fp
  sp : m'.sp = m.fp - 2
  stack : m'.stack = m.stack.set (m.fp - 3) (m.stack.get (m.sp - 1))
  next : Word.toNat? (m.stack.get (m.fp - 2)) = some m'.ip
  caller : Word.toNat? (m.stack.get (m.fp - 1)) = some m'.fp

theorem exits_of_ret (h : ret m = .ok () m') : Exits m m' := by
  unfold ret at h
  rw [get_bind] at h
  obtain ⟨_, hfp, h⟩ := looking_eq_ok (looks_ensure _ _) h
  rw [get_bind] at h
  obtain ⟨_, -, h⟩ := looking_eq_ok (looks_ensure _ _) h
  rw [get_bind] at h
  obtain ⟨result, hresult, h⟩ := looking_eq_ok (looks_read _) h
  obtain ⟨-, rfl⟩ := of_read hresult
  obtain ⟨_, m₁, h₁, h⟩ := bind_eq_ok.1 h
  obtain ⟨-, rfl⟩ := write_eq_ok.1 h₁
  obtain ⟨_, m₂, h₂, h⟩ := bind_eq_ok.1 h
  cases h₂
  obtain ⟨w, hw, h⟩ := looking_eq_ok (looks_read _) h
  obtain ⟨caller, hcaller, h⟩ := looking_eq_ok (looks_restored _) h
  obtain ⟨_, m₃, h₃, h⟩ := bind_eq_ok.1 h
  cases h₃
  obtain ⟨w', hw', h⟩ := looking_eq_ok (looks_read _) h
  obtain ⟨next, hnext, h⟩ := looking_eq_ok (looks_restored _) h
  cases h
  have hfp := of_ensure hfp
  obtain ⟨-, rfl⟩ := of_read hw
  obtain ⟨-, rfl⟩ := of_read hw'
  have hsaved := of_restored hcaller
  have hsaved' := of_restored hnext
  dsimp only at hsaved hsaved'
  rw [Stack.get_set, if_neg (by omega)] at hsaved hsaved'
  exact ⟨hfp, rfl, rfl, hsaved', hsaved⟩

/-- A return undoes a call if the words below the frame are still as the call left them. -/
theorem Exits.undoes {next : Nat} {m'' : Machine} (hexits : Exits m' m'') (henters : Enters next m m₁)
    (hfp : m'.fp = m.sp + 2) (hwords : ∀ j < m.sp + 2, m'.stack.get j = m₁.stack.get j) :
    m''.ip = next ∧ m''.fp = m.fp ∧ m''.sp = m.sp ∧ (∀ j < m.sp - 1, m''.stack.get j = m.stack.get j) ∧
      m''.stack.get (m.sp - 1) = m'.stack.get (m'.sp - 1) := by
  have hpos := henters.pos
  have hnext := hexits.next
  have hcaller := hexits.caller
  rw [hfp, Nat.add_sub_cancel, hwords _ (by omega), henters.next] at hnext
  rw [hfp, show m.sp + 2 - 1 = m.sp + 1 from rfl, hwords _ (by omega), henters.caller] at hcaller
  refine ⟨(Option.some.inj hnext).symm, (Option.some.inj hcaller).symm, ?_, fun j hj => ?_, ?_⟩
  · rw [hexits.sp, hfp, Nat.add_sub_cancel]
  · rw [hexits.stack, Stack.get_set, if_neg (by omega), hwords _ (by omega), henters.words _ (by omega)]
  · rw [hexits.stack, Stack.get_set, if_pos (by omega)]

end Machine

/-- What a step in a call does to the frames. -/
inductive Shift (m m' : Machine) : Prop where
  | stays (hfp : m'.fp = m.fp) (hwords : ∀ j < m.fp, m'.stack.get j = m.stack.get j) : Shift m m'
  | enters {next : Nat} (h : Enters next m m') : Shift m m'
  | exits (hfetch : m.fetch = .ok .ret) (h : Exits m m') : Shift m m'

variable {b : Bytecode} {body : List Instruction} {m m₁ m' : Machine}

theorem Inside.shift_push {pre post : List Instruction} {next : Nat} {w : Word}
    (h : Inside b body m pre post) (hexec : Machine.execute (.push w) next m = .ok () m') : Shift m m' := by
  have hsp := h.sp
  rw [execute_push] at hexec
  split at hexec
  · cases hexec
    refine .stays rfl fun j hj => ?_
    rw [Stack.get_set, if_neg (by omega)]
  · cases hexec

/-- Whatever is not a call or a return writes into its own frame or above it. -/
theorem Inside.shift (hb : b.WellFormed body) {pre post : List Instruction} {i : Instruction}
    (h : Inside b body m pre (i :: post)) (hexec : Machine.execute i (m.ip + i.width) m = .ok () m') :
    Shift m m' := by
  have hlegal := hb.legal h.split
  have hpops := hlegal.pops
  have hsp := h.sp
  have hroom := h.room
  cases i with
  | nop =>
    cases hexec
    exact .stays rfl fun _ _ => rfl
  | push w => exact h.shift_push hexec
  | load k =>
    rw [execute_load (h.slot_lt (hlegal.slot k rfl))] at hexec
    exact h.shift_push hexec
  | store k =>
    change 1 ≤ depth 0 pre at hpops
    rw [execute_store (by omega) hroom (h.slot_lt (hlegal.slot k rfl))] at hexec
    cases hexec
    refine .stays rfl fun j hj => ?_
    rw [Stack.get_set, if_neg (by omega)]
  | arith op =>
    change 2 ≤ depth 0 pre at hpops
    rw [execute_arith (by omega) hroom] at hexec
    split at hexec
    · cases hexec
      refine .stays rfl fun j hj => ?_
      rw [Stack.get_set, if_neg (by omega)]
    · cases hexec
  | branch test target =>
    change 2 ≤ depth 0 pre at hpops
    rw [execute_branch (by omega) hroom] at hexec
    cases hexec
    exact .stays rfl fun _ _ => rfl
  | goto target =>
    cases hexec
    exact .stays rfl fun _ _ => rfl
  | call target => exact .enters (enters_of_call hexec)
  | ret => exact .exits (h.fetch_cons hb) (exits_of_ret hexec)
  | stop => exact hlegal.target.elim

/-- The frames from `fp` down lead to the one at `base`. -/
inductive Upon (stack : Stack) (base : Nat) : (fp : Nat) → Prop where
  | here : Upon stack base base
  | call {fp caller : Nat} (below : Upon stack base caller) (hfp : caller + 3 ≤ fp)
      (hcaller : Word.toNat? (stack.get (fp - 1)) = some caller) : Upon stack base fp

theorem Upon.le {stack : Stack} {base fp : Nat} (h : Upon stack base fp) : base ≤ fp := by
  induction h with
  | here => exact Nat.le_refl base
  | call _ hfp _ ih => omega

theorem Upon.congr {stack stack' : Stack} {base fp : Nat} (h : Upon stack base fp) :
    (∀ j < fp, stack'.get j = stack.get j) → Upon stack' base fp := by
  induction h with
  | here => exact fun _ => .here
  | call below hfp hcaller ih =>
    intro hsame
    refine .call (ih fun j hj => hsame j (by omega)) hfp ?_
    rw [hsame _ (by omega), hcaller]

theorem Upon.inv {stack : Stack} {base fp : Nat} (h : Upon stack base fp) :
    fp = base ∨ ∃ caller, Upon stack base caller ∧ caller + 3 ≤ fp ∧
      Word.toNat? (stack.get (fp - 1)) = some caller := by
  cases h with
  | here => exact .inl rfl
  | call below hfp hcaller => exact .inr ⟨_, below, hfp, hcaller⟩

/-- The machine is in the call whose frame is at `base`, or in one that was made in it, and the words
below `base` are as they were in `m₁`. -/
structure InCall (b : Bytecode) (body : List Instruction) (base : Nat) (m₁ m : Machine) : Prop where
  framed : Framed b body m
  upon : Upon m.stack base m.fp
  words : ∀ j < base, m.stack.get j = m₁.stack.get j

namespace InCall

variable {base : Nat}

theorem inside (h : InCall b body base m₁ m) (hbase : 0 < base) : ∃ pre post, Inside b body m pre post := by
  have hle := h.upon.le
  rcases h.framed with hout | hin
  · have hfp := hout.fp
    omega
  · exact hin

/-- The frame at `base` is on the stack with all its variables. -/
theorem le_sp (h : InCall b body base m₁ m) (hbase : 0 < base) : base + b.frameSize ≤ m.sp := by
  obtain ⟨pre, post, hin⟩ := h.inside hbase
  have hle := h.upon.le
  have hsp := hin.sp
  omega

/-- A step stays in the call, or it is the return from it. -/
theorem step (hb : b.WellFormed body) (h : InCall b body base m₁ m) (hbase : 0 < base)
    (hstep : Machine.step m = .ok () m') :
    InCall b body base m₁ m' ∨ m.fp = base ∧ m.fetch = .ok .ret ∧ Exits m m' := by
  have hframed := h.framed.of_step hb hstep
  have hle := h.upon.le
  obtain ⟨pre, post, hin⟩ := h.inside hbase
  cases post with
  | nil =>
    rw [Machine.step, hin.fetch_nil hb] at hstep
    cases hstep
  | cons i post =>
    rw [step_of_fetch (hin.fetch_cons hb)] at hstep
    cases hin.shift hb hstep with
    | stays hfp hwords =>
      refine .inl ⟨hframed, ?_, fun j hj => (hwords j (by omega)).trans (h.words j hj)⟩
      rw [hfp]
      exact h.upon.congr hwords
    | enters henters =>
      have hsp := hin.sp
      have hparam := hb.param
      have hwords : ∀ j < m.fp, m'.stack.get j = m.stack.get j :=
        fun j hj => henters.words j (by omega)
      refine .inl ⟨hframed, ?_, fun j hj => (hwords j (by omega)).trans (h.words j hj)⟩
      rw [henters.fp]
      exact .call (h.upon.congr hwords) (by omega) henters.caller
    | exits hfetch hexits =>
      rcases h.upon.inv with hhere | ⟨caller, hbelow, hfp, hcaller⟩
      · exact .inr ⟨hhere, hfetch, hexits⟩
      · -- the frame that is left was laid by a call made above `base`
        have hback : m'.fp = caller := Option.some.inj (hexits.caller.symm.trans hcaller)
        have hbase := hbelow.le
        have hwords : ∀ j < caller, m'.stack.get j = m.stack.get j := by
          intro j hj
          rw [hexits.stack, Stack.get_set, if_neg (by omega)]
        refine .inl ⟨hframed, ?_, fun j hj => (hwords j (by omega)).trans (h.words j hj)⟩
        rw [hback]
        exact hbelow.congr hwords

end InCall

/-- The machines that come from `m` by steps that succeed and leave more than `s` words on the stack. -/
inductive Machine.StaysAbove (s : Nat) (m : Machine) : Machine → Prop where
  | refl : StaysAbove s m m
  | step {m₁ m₂ : Machine} (h : StaysAbove s m m₁) (hstep : Machine.step m₁ = .ok () m₂)
      (habove : s < m₂.sp) : StaysAbove s m m₂

theorem InCall.staysAbove (hb : b.WellFormed body) {s : Nat} (h : InCall b body (s + 2) m₁ m)
    (habove : m.StaysAbove s m') : InCall b body (s + 2) m₁ m' := by
  induction habove with
  | refl => exact h
  | step _ hstep habove ih =>
    rcases ih.step hb (Nat.zero_lt_succ _) hstep with hstays | ⟨hfp, -, hexits⟩
    · exact hstays
    · have hsp := hexits.sp
      omega

/-- Right after a call its frame is the last. -/
theorem Framed.inCall (hb : b.WellFormed body) (h : Framed b body m) {next : Nat}
    (hstep : Machine.step m = .ok () m₁) (henters : Enters next m m₁) :
    InCall b body (m.sp + 2) m₁ m₁ := by
  refine ⟨h.of_step hb hstep, ?_, fun _ _ => rfl⟩
  rw [henters.fp]
  exact .here

/-- A call leaves its caller alone. Until the stack is down again where it was before the call, the words
of the caller and the two that the call saved stay as they are. It comes down by a return, which goes on
behind the call with the result in the place of the argument. The states before and after the call are
those that successful steps lead to; a fault ends a run. -/
theorem call_keeps_caller {source : String} {limits : Limits} {arg : Word} {m₀ m m₁ : Machine}
    {target : Nat} (hcode : limits.code ≤ Word.sizeLimit) (hstack : limits.stack ≤ Word.sizeLimit)
    (hcompile : compile source limits.code = .ok b)
    (hreset : reset arg (.load b limits) = .ok () m₀) (hreaches : m₀.Reaches m)
    (hfetch : m.fetch = .ok (.call target)) (hcall : step m = .ok () m₁) :
    0 < m.sp ∧ (∀ j < m.sp, m₁.stack.get j = m.stack.get j) ∧
    Word.toNat? (m₁.stack.get m.sp) = some (m.ip + 2) ∧
    Word.toNat? (m₁.stack.get (m.sp + 1)) = some m.fp ∧
    (∀ m', m₁.StaysAbove m.sp m' →
      m.sp + 2 + b.frameSize ≤ m'.sp ∧ ∀ j < m.sp + 2, m'.stack.get j = m₁.stack.get j) ∧
    ∀ m' m'', m₁.StaysAbove m.sp m' → step m' = .ok () m'' → m''.sp ≤ m.sp →
      m'.fetch = .ok .ret ∧ m''.ip = m.ip + 2 ∧ m''.fp = m.fp ∧ m''.sp = m.sp ∧
      (∀ j < m.sp - 1, m''.stack.get j = m.stack.get j) ∧
      m''.stack.get (m.sp - 1) = m'.stack.get (m'.sp - 1) := by
  obtain ⟨body, hb⟩ := exists_wellFormed hcompile hcode
  have hframed := hreaches.framed hb (framed_reset hstack hreset)
  have henters : Enters (m.ip + 2) m m₁ := by
    rw [step_of_fetch hfetch] at hcall
    exact enters_of_call hcall
  have hin := hframed.inCall hb hcall henters
  refine ⟨henters.pos, henters.words, henters.next, henters.caller, fun m' habove => ?_,
    fun m' m'' habove hstep hdown => ?_⟩
  · have hin' := hin.staysAbove hb habove
    exact ⟨hin'.le_sp (Nat.zero_lt_succ _), hin'.words⟩
  · have hin' := hin.staysAbove hb habove
    rcases hin'.step hb (Nat.zero_lt_succ _) hstep with hstays | ⟨hfp, hret, hexits⟩
    · have hsp := hstays.le_sp (Nat.zero_lt_succ _)
      omega
    · exact ⟨hret, hexits.undoes henters hfp hin'.words⟩

/-- The call is made in the middle of a sum, and its argument is replaced by the result. -/
theorem call_keeps_caller_sum : ∃ b m₀ m m₁ m' m'',
    compile "f(n) \x7b if (n > 0) return 4 + f(0); else return 9; \x7d" 64 = .ok b ∧
    reset 1 (.load b ⟨64, 64⟩) = .ok () m₀ ∧ m₀.Reaches m ∧ m.fetch = .ok (.call 3) ∧
    step m = .ok () m₁ ∧ m₁.StaysAbove m.sp m' ∧ step m' = .ok () m'' ∧
    m.ip = 13 ∧ m.sp = 7 ∧ m.fp = 3 ∧ 9 + b.frameSize ≤ m'.sp ∧
    m''.ip = 15 ∧ m''.sp = 7 ∧ m''.fp = 3 ∧ m''.stack.get 5 = m.stack.get 5 ∧
    m''.stack.get 6 = m'.stack.get (m'.sp - 1) := by
  have hrun : ((compile "f(n) \x7b if (n > 0) return 4 + f(0); else return 9; \x7d" 64).toOption.bind
      fun b => (do
        reset 1; stepFor 6; let m ← get
        step
        step; let m₂ ← get
        step; let m₃ ← get
        step; let m₄ ← get
        step; let m₅ ← get
        step; let m₆ ← get
        return (m.fetch.toOption, [m.ip, m.sp, m.fp], [m₂.sp, m₃.sp, m₄.sp, m₅.sp, m₆.sp]) :
          Action (Option Instruction × List Nat × List Nat)).run' (.load b ⟨64, 64⟩)) =
      some (some (.call 3), [13, 7, 3], [12, 13, 11, 12, 7]) := by
    decide +kernel
  obtain ⟨b, hb, hrun⟩ := Option.bind_eq_some_iff.1 hrun
  have hcompile := eq_ok_of_toOption hb
  obtain ⟨_, hrun⟩ := run'_eq_some.1 hrun
  obtain ⟨_, m₀, hreset, hrun⟩ := bind_eq_ok.1 hrun
  obtain ⟨_, m, hsteps, hrun⟩ := bind_eq_ok.1 hrun
  rw [get_bind] at hrun
  obtain ⟨_, m₁, hcall, hrun⟩ := bind_eq_ok.1 hrun
  obtain ⟨_, m₂, h₂, hrun⟩ := bind_eq_ok.1 hrun
  rw [get_bind] at hrun
  obtain ⟨_, m₃, h₃, hrun⟩ := bind_eq_ok.1 hrun
  rw [get_bind] at hrun
  obtain ⟨_, m₄, h₄, hrun⟩ := bind_eq_ok.1 hrun
  rw [get_bind] at hrun
  obtain ⟨_, m₅, h₅, hrun⟩ := bind_eq_ok.1 hrun
  rw [get_bind] at hrun
  obtain ⟨_, m₆, hret, hget⟩ := bind_eq_ok.1 hrun
  rw [get_bind] at hget
  obtain ⟨hregisters, -⟩ := pure_eq_ok.1 hget
  simp only [Prod.mk.injEq, List.cons.injEq, and_true] at hregisters
  obtain ⟨hfetch, ⟨hip, hsp, hfp⟩, hsp₂, hsp₃, hsp₄, hsp₅, hsp₆⟩ := hregisters
  have hfetch := eq_ok_of_toOption hfetch
  have hreaches := reaches_of_stepFor hsteps
  have habove : m₁.StaysAbove m.sp m₅ :=
    .step (.step (.step (.step .refl h₂ (by omega)) h₃ (by omega)) h₄ (by omega)) h₅ (by omega)
  obtain ⟨-, -, -, -, hduring, hafter⟩ := call_keeps_caller
    (show (⟨64, 64⟩ : Limits).code ≤ Word.sizeLimit by decide) (by decide) hcompile hreset hreaches
    hfetch hcall
  obtain ⟨-, hip', hfp', hsp', hwords, hresult⟩ := hafter m₅ m₆ habove hret (by omega)
  have hsp₅' := (hduring m₅ habove).1
  have hfive := hwords 5 (by omega)
  rw [hsp] at hsp' hresult hsp₅'
  rw [hip] at hip'
  rw [hfp] at hfp'
  exact ⟨b, m₀, m, m₁, m₅, m₆, hcompile, hreset, hreaches, hfetch, hcall, habove, hret, hip, hsp, hfp,
    hsp₅', hip', hsp', hfp', hfive, hresult⟩

end Solo
