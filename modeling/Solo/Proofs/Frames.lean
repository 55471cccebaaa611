import Solo.Proofs.Stepping
import Solo.Proofs.WellFormed

/-! Frames of compiled code. However far a program has run, the stack is a chain of frames, one for
each call that has not returned, and above the last of them lie as many operands as the place in the
code says. A step keeps this up or fails in one of three ways. -/

namespace Solo

open Bytecode (bodyAddr)
open Machine

/-- The frames down from the one at `fp`. The lowest was laid by the call at which a run starts. Any
other was laid by a call in the body, above the operands that its caller had there. -/
inductive Chain (body : List Instruction) (frameSize : Nat) (stack : Stack) : Nat → Prop where
  | bottom (hnext : stack.get 1 = .ofSize 2) (hcaller : stack.get 2 = .ofSize 0) :
      Chain body frameSize stack 3
  | call {pre post : List Instruction} {caller : Nat} (below : Chain body frameSize stack caller)
      (hbody : body = pre ++ .call bodyAddr :: post)
      (hnext : stack.get (caller + frameSize + depth 0 pre) = .ofSize (bodyAddr + width pre + 2))
      (hcaller : stack.get (caller + frameSize + depth 0 pre + 1) = .ofSize caller) :
      Chain body frameSize stack (caller + frameSize + depth 0 pre + 2)

/-- The chain only looks at words below `fp`. -/
theorem Chain.congr {body : List Instruction} {frameSize fp : Nat} {stack stack' : Stack}
    (h : Chain body frameSize stack fp) :
    (∀ j < fp, stack'.get j = stack.get j) → Chain body frameSize stack' fp := by
  induction h with
  | bottom hnext hcaller =>
    intro hsame
    exact .bottom ((hsame 1 (by omega)).trans hnext) ((hsame 2 (by omega)).trans hcaller)
  | call below hbody hnext hcaller ih =>
    intro hsame
    exact .call (ih fun j hj => hsame j (by omega)) hbody ((hsame _ (by omega)).trans hnext)
      ((hsame _ (by omega)).trans hcaller)

theorem Chain.three_le {body : List Instruction} {frameSize fp : Nat} {stack : Stack}
    (h : Chain body frameSize stack fp) : 3 ≤ fp := by
  induction h with
  | bottom => exact Nat.le_refl 3
  | call _ _ _ _ ih => omega

theorem Chain.inv {body : List Instruction} {frameSize fp : Nat} {stack : Stack}
    (h : Chain body frameSize stack fp) :
    (fp = 3 ∧ stack.get 1 = .ofSize 2 ∧ stack.get 2 = .ofSize 0) ∨
    ∃ pre post caller, Chain body frameSize stack caller ∧ body = pre ++ .call bodyAddr :: post ∧
      fp = caller + frameSize + depth 0 pre + 2 ∧
      stack.get (fp - 2) = .ofSize (bodyAddr + width pre + 2) ∧
      stack.get (fp - 1) = .ofSize caller := by
  cases h with
  | bottom hnext hcaller => exact .inl ⟨rfl, hnext, hcaller⟩
  | call below hbody hnext hcaller => exact .inr ⟨_, _, _, below, hbody, rfl, hnext, hcaller⟩

/-- The machine is in a call: in the body, behind `pre` and before `post`. -/
structure Inside (b : Bytecode) (body : List Instruction) (m : Machine)
    (pre post : List Instruction) : Prop where
  holds : m.Holds b
  running : m.halted = false
  split : body = pre ++ post
  ip : m.ip = bodyAddr + width pre
  sp : m.sp = m.fp + b.frameSize + depth 0 pre
  room : m.sp ≤ m.capacity
  chain : Chain body b.frameSize m.stack m.fp

/-- The machine is not in a call: it has not started, or it has come back. -/
structure Outside (b : Bytecode) (m : Machine) : Prop where
  holds : m.Holds b
  fp : m.fp = 0
  sp : m.sp = 1
  room : m.sp ≤ m.capacity
  ip : m.ip = 0 ∧ m.halted = false ∨ m.ip = 2

def Framed (b : Bytecode) (body : List Instruction) (m : Machine) : Prop :=
  Outside b m ∨ ∃ pre post, Inside b body m pre post

/-- How a step from `m` may end. -/
def EndsWell (b : Bytecode) (body : List Instruction) (m : Machine) :
    EStateM.Result Fault Machine Unit → Prop
  | .ok _ m' => Framed b body m'
  | .error f _ => f.ip = m.ip ∧ (f.cause = .divisionByZero ∨ f.cause = .stackOverflow m.capacity ∨
      f.cause = .illegal .noReturn ∧ m.ip = b.wordCount)

theorem Machine.Holds.param_lt {b : Bytecode} {body : List Instruction} {m : Machine}
    (h : m.Holds b) (hb : b.WellFormed body) : m.paramSlot < m.frameSize := by
  rw [h.paramSlot, h.frameSize]
  exact hb.param

/-- A call lays a frame on top of the chain, if there is room for it. -/
theorem EndsWell.call {b : Bytecode} {body : List Instruction} (hb : b.WellFormed body)
    {m : Machine} (hholds : m.Holds b) (hrunning : m.halted = false) (hsp : 0 < m.sp)
    (hfp : m.fp ≤ m.sp) {next : Nat} (hnext : next < Word.sizeLimit)
    (hchain : Chain body b.frameSize (m.stack.enter m.sp (.ofSize next) (.ofSize m.fp) m.frameSize
      m.paramSlot) (m.sp + 2)) :
    EndsWell b body m (execute (.call bodyAddr) next m) := by
  rw [execute_call hsp hholds.capacity hnext hfp (hholds.param_lt hb)]
  split
  · next hroom =>
    refine .inr ⟨[], body, hholds, hrunning, rfl, rfl, ?_, hroom, hchain⟩
    change m.sp + 2 + m.frameSize = m.sp + 2 + b.frameSize
    rw [hholds.frameSize]
  · exact ⟨rfl, .inr (.inl rfl)⟩

namespace Inside

variable {b : Bytecode} {body pre post : List Instruction} {m : Machine} {i : Instruction}

theorem fetch_cons (hb : b.WellFormed body) (h : Inside b body m pre (i :: post)) : m.fetch = .ok i :=
  hb.fetch h.holds.code h.split h.ip

theorem ip_of_nil (hb : b.WellFormed body) (h : Inside b body m pre []) : m.ip = b.wordCount := by
  rw [h.ip, hb.wordCount_eq, h.split, List.append_nil]

theorem fetch_nil (hb : b.WellFormed body) (h : Inside b body m pre []) :
    m.fetch = .error ⟨m.ip, .illegal .noReturn⟩ :=
  fetch_end h.holds.code (h.ip_of_nil hb)

/-- Going on to the next instruction, with what is below the frame left alone. -/
theorem next (h : Inside b body m pre (i :: post)) {sp : Nat} {stack : Stack}
    (hsp : sp = m.fp + b.frameSize + i.settle (depth 0 pre)) (hroom : sp ≤ m.capacity)
    (hstack : ∀ j < m.fp, stack.get j = m.stack.get j) :
    Framed b body { m with ip := m.ip + i.width, sp, stack } := by
  refine .inr ⟨pre ++ [i], post, h.holds, h.running, ?_, ?_, ?_, hroom, h.chain.congr hstack⟩
  · rw [h.split, List.append_assoc]
    rfl
  · change m.ip + i.width = _
    rw [h.ip, width_append, Nat.add_assoc]
    rfl
  · change sp = _
    rw [hsp, depth_append]
    rfl

/-- Going to a place where no operands are expected. -/
theorem jump (h : Inside b body m pre post) {target sp : Nat} (hlands : Lands body target)
    (hsp : sp = m.fp + b.frameSize) : Framed b body { m with ip := target, sp } := by
  obtain ⟨pre', post', hsplit, htarget, hdepth, -⟩ := hlands
  refine .inr ⟨pre', post', h.holds, h.running, hsplit, htarget, ?_, ?_, h.chain⟩
  · rw [hdepth]
    exact hsp
  · have hroom := h.room
    rw [h.sp] at hroom
    change sp ≤ m.capacity
    omega

theorem push (h : Inside b body m pre (i :: post)) (hi : i.settle (depth 0 pre) = depth 0 pre + 1)
    (w : Word) : EndsWell b body m (execute (.push w) (m.ip + i.width) m) := by
  have hsp := h.sp
  rw [execute_push]
  split
  · next hroom =>
    refine h.next ?_ hroom fun j hj => ?_
    · rw [hi, hsp]
      rfl
    · rw [Stack.get_set, if_neg (by omega)]
  · exact ⟨rfl, .inr (.inl rfl)⟩

/-- The slots of the frame are on the stack. -/
theorem slot_lt (h : Inside b body m pre post) {k : Nat} (hk : k < b.frameSize) :
    m.fp + k < m.capacity := by
  have hsp := h.sp
  have hroom := h.room
  omega

theorem store {k : Nat} (h : Inside b body m pre (.store k :: post)) (hk : k < b.frameSize)
    (hpops : 1 ≤ depth 0 pre) : EndsWell b body m (execute (.store k) (m.ip + 2) m) := by
  have hsp := h.sp
  have hroom := h.room
  rw [execute_store (by omega) hroom (h.slot_lt hk)]
  refine h.next ?_ (by omega) fun j hj => ?_
  · change m.sp - 1 = m.fp + b.frameSize + (depth 0 pre - 1)
    omega
  · rw [Stack.get_set, if_neg (by omega)]

theorem arith {op : Arith} (h : Inside b body m pre (.arith op :: post)) (hpops : 2 ≤ depth 0 pre) :
    EndsWell b body m (execute (.arith op) (m.ip + 1) m) := by
  have hsp := h.sp
  have hroom := h.room
  rw [execute_arith (by omega) hroom]
  split
  · refine h.next ?_ (by omega) fun j hj => ?_
    · change m.sp - 1 = m.fp + b.frameSize + (depth 0 pre - 2 + 1)
      omega
    · rw [Stack.get_set, if_neg (by omega)]
  · exact ⟨rfl, .inl rfl⟩

theorem branch {test : Comparison} {target : Nat}
    (h : Inside b body m pre (.branch test target :: post)) (hdepth : depth 0 pre = 2)
    (hlands : Lands body target) : EndsWell b body m (execute (.branch test target) (m.ip + 2) m) := by
  have hsp := h.sp
  have hroom := h.room
  rw [execute_branch (by omega) hroom]
  by_cases htest : test.holds (m.stack.get (m.sp - 2)) (m.stack.get (m.sp - 1))
  · rw [if_pos htest]
    exact h.jump hlands (by omega)
  · rw [if_neg htest]
    refine h.next ?_ (by omega) fun _ _ => rfl
    change m.sp - 2 = m.fp + b.frameSize + (depth 0 pre - 2)
    omega

theorem call (hb : b.WellFormed body) (h : Inside b body m pre (.call bodyAddr :: post))
    (hpops : 1 ≤ depth 0 pre) : EndsWell b body m (execute (.call bodyAddr) (m.ip + 2) m) := by
  have hsp := h.sp
  have hnext : m.ip + 2 < Word.sizeLimit := by
    rw [h.ip]
    exact hb.next_lt h.split (by simp)
  have hbelow : Chain body b.frameSize (m.stack.enter m.sp (.ofSize (m.ip + 2)) (.ofSize m.fp)
      m.frameSize m.paramSlot) m.fp :=
    h.chain.congr fun j hj => Stack.get_enter_below _ _ _ (by omega)
  have hchain := Chain.call hbelow h.split
    (by rw [← hsp, ← h.ip]; exact Stack.get_enter_next _ _ _)
    (by rw [← hsp]; exact Stack.get_enter_caller _ _ _)
  rw [← hsp] at hchain
  exact .call hb h.holds h.running (by omega) (by omega) hnext hchain

/-- A return takes the last frame of the chain away. -/
theorem ret (hb : b.WellFormed body) (h : Inside b body m pre (.ret :: post))
    (hpops : 1 ≤ depth 0 pre) : EndsWell b body m (execute .ret (m.ip + 1) m) := by
  have hsp := h.sp
  have hroom := h.room
  have hcapacity := h.holds.capacity
  rcases h.chain.inv with ⟨hfp, hnext, hcaller⟩ |
    ⟨pre', post', caller, hbelow, hbody, hfp, hnext, hcaller⟩
  · have hnext' : m.stack.get (m.fp - 2) = .ofSize 2 := by rw [hfp]; exact hnext
    have hcaller' : m.stack.get (m.fp - 1) = .ofSize 0 := by rw [hfp]; exact hcaller
    rw [execute_ret (by omega) (by omega) hroom (by omega) (by omega) hnext' hcaller']
    refine .inl ⟨h.holds, rfl, ?_, ?_,
      .inr rfl⟩
    · change m.fp - 2 = 1
      omega
    · change m.fp - 2 ≤ m.capacity
      omega
  · have hargument := (hb.legal hbody).pops
    change 1 ≤ depth 0 pre' at hargument
    have haddr : bodyAddr + width pre' + 2 < Word.sizeLimit := hb.next_lt hbody (by simp)
    rw [execute_ret (by omega) (by omega) hroom haddr (by omega) hnext hcaller]
    refine .inr ⟨pre' ++ [.call bodyAddr], post', h.holds, h.running, ?_, ?_, ?_, ?_,
      hbelow.congr fun j hj => ?_⟩
    · rw [hbody, List.append_assoc]
      rfl
    · rw [width_append]
      rfl
    · rw [depth_append]
      change m.fp - 2 = caller + b.frameSize + (depth 0 pre' - 1 + 1)
      omega
    · change m.fp - 2 ≤ m.capacity
      omega
    · change (m.stack.set (m.fp - 3) _).get j = m.stack.get j
      rw [Stack.get_set, if_neg (by omega)]

theorem execute (hb : b.WellFormed body) (h : Inside b body m pre (i :: post)) :
    EndsWell b body m (Machine.execute i (m.ip + i.width) m) := by
  have hlegal := hb.legal h.split
  have hsp := h.sp
  have hroom := h.room
  cases i with
  | nop => exact h.next hsp hroom fun _ _ => rfl
  | push w => exact h.push rfl w
  | load k =>
    rw [execute_load (h.slot_lt (hlegal.slot k rfl))]
    exact h.push rfl _
  | store k => exact h.store (hlegal.slot k rfl) hlegal.pops
  | arith op => exact h.arith hlegal.pops
  | branch test target => exact h.branch hlegal.target.1 hlegal.target.2
  | goto target =>
    obtain ⟨hdepth, hlands⟩ := hlegal.target
    exact h.jump hlands (by omega)
  | call target =>
    obtain rfl : target = bodyAddr := hlegal.target
    exact h.call hb hlegal.pops
  | ret => exact h.ret hb hlegal.pops
  | stop => exact hlegal.target.elim

end Inside

variable {b : Bytecode} {body : List Instruction} {m m' : Machine}

/-- The call at which a run starts lays the lowest frame. -/
theorem Outside.start (hb : b.WellFormed body) (h : Outside b m) (hip : m.ip = 0)
    (hrunning : m.halted = false) : EndsWell b body m (step m) := by
  have hsp := h.sp
  have hfp := h.fp
  have hchain : Chain body b.frameSize (m.stack.enter m.sp (.ofSize (m.ip + 2)) (.ofSize m.fp)
      m.frameSize m.paramSlot) (m.sp + 2) := by
    rw [hip, hfp, hsp]
    exact .bottom (Stack.get_enter_next _ _ _) (Stack.get_enter_caller _ _ _)
  rw [step_of_fetch (hb.fetch_start h.holds.code hip)]
  exact .call hb h.holds hrunning (by omega) (by omega) (by rw [hip]; decide) hchain

theorem Outside.stop (hb : b.WellFormed body) (h : Outside b m) (hip : m.ip = 2) :
    step m = .ok () { m with halted := true } := by
  rw [step_of_fetch (hb.fetch_stop h.holds.code hip)]
  rfl

/-- What a step does to a machine that runs well-formed code. -/
theorem Framed.step (hb : b.WellFormed body) (h : Framed b body m) :
    EndsWell b body m (Machine.step m) := by
  rcases h with h | ⟨pre, post, h⟩
  · rcases h.ip with ⟨hip, hrunning⟩ | hip
    · exact h.start hb hip hrunning
    · rw [h.stop hb hip]
      exact .inl ⟨h.holds, h.fp, h.sp,
        h.room, .inr hip⟩
  · cases post with
    | nil =>
      rw [Machine.step, h.fetch_nil hb]
      exact ⟨rfl, .inr (.inr ⟨rfl, h.ip_of_nil hb⟩)⟩
    | cons i post =>
      rw [step_of_fetch (h.fetch_cons hb)]
      exact h.execute hb

theorem Framed.of_step (hb : b.WellFormed body) (h : Framed b body m)
    (hstep : Machine.step m = .ok () m') : Framed b body m' := by
  have hends := h.step hb
  rw [hstep] at hends
  exact hends

/-- The machines that come from `m` by steps that succeed. -/
inductive Machine.Reaches (m : Machine) : Machine → Prop where
  | refl : Reaches m m
  | step {m₁ m₂ : Machine} (h : Reaches m m₁) (hstep : Machine.step m₁ = .ok () m₂) : Reaches m m₂

theorem Machine.Reaches.framed (hb : b.WellFormed body) (h : m.Reaches m') (hm : Framed b body m) :
    Framed b body m' := by
  induction h with
  | refl => exact hm
  | step _ hstep ih => exact ih.of_step hb hstep

/-- Steps `n` times, or until a step fails. -/
def Machine.stepFor : Nat → Action Unit
  | 0 => pure ()
  | n + 1 => do
    stepFor n
    step

theorem Machine.reaches_of_stepFor {n : Nat} (h : stepFor n m = .ok () m') : m.Reaches m' := by
  induction n generalizing m' with
  | zero =>
    obtain ⟨-, rfl⟩ := pure_eq_ok.1 h
    exact .refl
  | succ n ih =>
    obtain ⟨_, m₁, h₁, hstep⟩ := bind_eq_ok.1 h
    exact .step (ih h₁) hstep

/-- A chain of frames below `top`. The lowest caller has no frame. A frame holds its variables, and
below them where to go back to, which is behind a call, and its caller's frame, which is well framed
below the argument of that call. -/
inductive WellFramed (b : Bytecode) (stack : Stack) : (fp top : Nat) → Prop where
  | base : WellFramed b stack 0 0
  | frame {fp top addr target caller : Nat} (hfp : 3 ≤ fp) (htop : fp + b.frameSize ≤ top)
      (hcall : (addr, .call target) ∈ b.addressed)
      (hnext : Word.toNat? (stack.get (fp - 2)) = some (addr + 2))
      (hcaller : Word.toNat? (stack.get (fp - 1)) = some caller)
      (below : WellFramed b stack caller (fp - 3)) : WellFramed b stack fp top

theorem Chain.wellFramed (hb : b.WellFormed body) {stack : Stack} {fp : Nat}
    (h : Chain body b.frameSize stack fp) : ∀ {top}, fp + b.frameSize ≤ top → top ≤ Word.sizeLimit →
      WellFramed b stack fp top := by
  induction h with
  | bottom hnext hcaller =>
    intro top htop _
    have hcall : (0, .call bodyAddr) ∈ b.addressed := by
      rw [Bytecode.addressed, hb.instructions]
      exact List.mem_cons_self
    refine .frame (Nat.le_refl 3) htop hcall ?_ ?_ .base
    · rw [hnext]
      exact Word.toNat?_ofSize (by decide)
    · rw [hcaller]
      exact Word.toNat?_ofSize (by decide)
  | @call pre post caller below hbody hnext hcaller ih =>
    intro top htop hsmall
    have hargument : 1 ≤ depth 0 pre := (hb.legal hbody).pops
    have haddr : bodyAddr + width pre + 2 < Word.sizeLimit := hb.next_lt hbody (by simp)
    have hthree := below.three_le
    refine .frame (by omega) htop (hb.mem_addressed hbody) ?_ ?_ (ih ?_ ?_)
    · rw [Nat.add_sub_cancel, hnext]
      exact Word.toNat?_ofSize haddr
    · rw [show caller + b.frameSize + depth 0 pre + 2 - 1 = caller + b.frameSize + depth 0 pre + 1
        from rfl, hcaller]
      exact Word.toNat?_ofSize (by omega)
    · omega
    · omega

end Solo
