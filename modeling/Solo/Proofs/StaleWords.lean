import Solo.Proofs.Faults
import Solo.Proofs.Safety

/-! What earlier calls have left at `sp` and above is never seen by compiled code. A call lays its frame
over such words and covers all of them, and no instruction looks beyond its frame and operands; so two
machines that differ only there go on alike, to the same result or the same fault. Beyond a fault that is
no longer so. -/

namespace Solo

open Bytecode (bodyAddr)
open Machine

namespace Stack

/-- The two stacks have the same words below index `n`. -/
def AgreeBelow (n : Nat) (s t : Stack) : Prop := ∀ j < n, t.get j = s.get j

theorem take_eq_take_iff {n : Nat} {s t : Stack} : t.take n = s.take n ↔ AgreeBelow n s t := by
  rw [take, take, List.map_eq_map_iff]
  exact forall_congr' fun j => by rw [List.mem_range]

namespace AgreeBelow

variable {n : Nat} {s t : Stack}

theorem mono {k : Nat} (h : AgreeBelow n s t) (hk : k ≤ n) : AgreeBelow k s t := fun j hj => h j (by omega)

theorem set (h : AgreeBelow n s t) (i : Nat) (w : Word) : AgreeBelow n (s.set i w) (t.set i w) := by
  intro j hj
  rw [get_set, get_set, h j hj]

theorem push (h : AgreeBelow n s t) (w : Word) : AgreeBelow (n + 1) (s.set n w) (t.set n w) := by
  intro j hj
  rw [get_set, get_set]
  split
  · rfl
  · exact h j (by omega)

theorem clear (h : AgreeBelow n s t) (k : Nat) : AgreeBelow (n + k) (s.clear n k) (t.clear n k) := by
  intro j hj
  rw [get_clear, get_clear]
  split
  · rfl
  · exact h j (by omega)

/-- A call covers whatever was left where it lays its frame. -/
theorem enter (h : AgreeBelow n s t) (hn : 0 < n) (next caller : Word) (frameSize param : Nat) :
    AgreeBelow (n + 2 + frameSize) (s.enter n next caller frameSize param)
      (t.enter n next caller frameSize param) := by
  rw [Stack.enter, Stack.enter, h (n - 1) (by omega)]
  exact (((h.push next).push caller).clear frameSize).set _ _

end AgreeBelow

end Stack

namespace Machine

/-- The second machine is the first but for the words at `sp` and above. -/
structure Twin (m n : Machine) : Prop where
  same : n = { m with stack := n.stack }
  live : n.live = m.live

/-- The two answers are the same, and the machines left are twins. -/
inductive Matches {α : Type} : EStateM.Result Fault Machine α → EStateM.Result Fault Machine α → Prop
  | ok {m n : Machine} (a : α) (h : m.Twin n) : Matches (.ok a m) (.ok a n)
  | error {m n : Machine} (f : Fault) (h : m.Twin n) : Matches (.error f m) (.error f n)

theorem Matches.of_ok {α : Type} {r r' : EStateM.Result Fault Machine α} (h : Matches r r') {a : α}
    {m : Machine} (hr : r = .ok a m) : ∃ n, r' = .ok a n ∧ m.Twin n := by
  cases h with
  | ok _ h =>
    cases hr
    exact ⟨_, rfl, h⟩
  | error => cases hr

theorem Matches.of_error {α : Type} {r r' : EStateM.Result Fault Machine α} (h : Matches r r')
    {f : Fault} {m : Machine} (hr : r = .error f m) : ∃ n, r' = .error f n ∧ m.Twin n := by
  cases h with
  | ok => cases hr
  | error _ h =>
    cases hr
    exact ⟨_, rfl, h⟩

variable {m n : Machine} {s : Stack} {next : Nat}

theorem Matches.bind {α β : Type} {x : Action α} {f : α → Action β} (h : Matches (x m) (x n))
    (hf : ∀ a m₁ n₁, x m = .ok a m₁ → m₁.Twin n₁ → Matches (f a m₁) (f a n₁)) :
    Matches ((x >>= f) m) ((x >>= f) n) := by
  cases hm : x m with
  | ok a m₁ =>
    obtain ⟨n₁, hn, htwin⟩ := h.of_ok hm
    rw [bind_of_ok hm, bind_of_ok hn]
    exact hf a m₁ n₁ hm htwin
  | error e m₁ =>
    obtain ⟨n₁, hn, htwin⟩ := h.of_error hm
    rw [bind_of_error hm, bind_of_error hn]
    exact .error e htwin

theorem twin_of_agreeBelow (h : m.stack.AgreeBelow m.sp s) : m.Twin { m with stack := s } :=
  ⟨rfl, Stack.take_eq_take_iff.2 h⟩

theorem Twin.exists_agreeBelow (h : m.Twin n) :
    ∃ s, m.stack.AgreeBelow m.sp s ∧ n = { m with stack := s } := by
  have hlive := h.live
  rw [h.same] at hlive
  exact ⟨n.stack, Stack.take_eq_take_iff.1 hlive, h.same⟩

theorem matches_push (h : m.stack.AgreeBelow m.sp s) (w : Word) :
    Matches (execute (.push w) next m) (execute (.push w) next { m with stack := s }) := by
  rw [execute_push, execute_push]
  dsimp only
  split
  · exact .ok () (twin_of_agreeBelow (h.push w))
  · exact .error _ (twin_of_agreeBelow h)

theorem matches_call (h : m.stack.AgreeBelow m.sp s) {target : Nat} (hsp : 0 < m.sp)
    (hcapacity : m.capacity ≤ Word.sizeLimit) (hnext : next < Word.sizeLimit) (hfp : m.fp ≤ m.sp)
    (hparam : m.paramSlot < m.frameSize) :
    Matches (execute (.call target) next m) (execute (.call target) next { m with stack := s }) := by
  rw [execute_call hsp hcapacity hnext hfp hparam,
    execute_call (m := { m with stack := s }) hsp hcapacity hnext hfp hparam]
  dsimp only
  split
  · exact .ok () (twin_of_agreeBelow (h.enter hsp _ _ _ _))
  · exact .error _ (twin_of_agreeBelow h)

theorem matches_of_fetch {i : Instruction} (hfetch : m.fetch = .ok i)
    (h : Matches (execute i (m.ip + i.width) m) (execute i (m.ip + i.width) { m with stack := s })) :
    Matches (step m) (step { m with stack := s }) := by
  rw [step_of_fetch hfetch, step_of_fetch (m := { m with stack := s }) hfetch]
  exact h

end Machine

namespace Inside

variable {b : Bytecode} {body pre post : List Instruction} {m : Machine} {i : Instruction} {s : Stack}

theorem matches_store {k : Nat} (h : Inside b body m pre (.store k :: post)) (hk : k < b.frameSize)
    (hpops : 1 ≤ depth 0 pre) (hs : m.stack.AgreeBelow m.sp s) (next : Nat) :
    Matches (Machine.execute (.store k) next m)
      (Machine.execute (.store k) next { m with stack := s }) := by
  have hsp := h.sp
  have hslot := h.slot_lt hk
  rw [execute_store (by omega) h.room hslot,
    execute_store (m := { m with stack := s }) (show 0 < m.sp by omega) h.room hslot]
  dsimp only
  rw [hs (m.sp - 1) (by omega)]
  exact .ok () (twin_of_agreeBelow ((hs.set _ _).mono (Nat.sub_le _ _)))

theorem matches_arith {op : Arith} (h : Inside b body m pre (.arith op :: post))
    (hpops : 2 ≤ depth 0 pre) (hs : m.stack.AgreeBelow m.sp s) (next : Nat) :
    Matches (Machine.execute (.arith op) next m)
      (Machine.execute (.arith op) next { m with stack := s }) := by
  have hsp := h.sp
  rw [execute_arith (by omega) h.room,
    execute_arith (m := { m with stack := s }) (show 2 ≤ m.sp by omega) h.room]
  dsimp only
  rw [hs (m.sp - 1) (by omega), hs (m.sp - 2) (by omega)]
  split
  · exact .ok () (twin_of_agreeBelow ((hs.set _ _).mono (Nat.sub_le _ _)))
  · exact .error _ (twin_of_agreeBelow (hs.mono (Nat.sub_le _ _)))

theorem matches_branch {test : Comparison} {target : Nat}
    (h : Inside b body m pre (.branch test target :: post)) (hpops : 2 ≤ depth 0 pre)
    (hs : m.stack.AgreeBelow m.sp s) (next : Nat) :
    Matches (Machine.execute (.branch test target) next m)
      (Machine.execute (.branch test target) next { m with stack := s }) := by
  have hsp := h.sp
  rw [execute_branch (by omega) h.room,
    execute_branch (m := { m with stack := s }) (show 2 ≤ m.sp by omega) h.room]
  dsimp only
  rw [hs (m.sp - 1) (by omega), hs (m.sp - 2) (by omega)]
  exact .ok () (twin_of_agreeBelow (hs.mono (Nat.sub_le _ _)))

/-- The two words below a frame hold registers. -/
theorem saved_words (hb : b.WellFormed body) (h : Inside b body m pre post) :
    ∃ addr caller, addr < Word.sizeLimit ∧ caller < Word.sizeLimit ∧
      m.stack.get (m.fp - 2) = .ofSize addr ∧ m.stack.get (m.fp - 1) = .ofSize caller := by
  have hsp := h.sp
  have hroom := h.room
  have hcapacity := h.holds.capacity
  rcases h.chain.inv with ⟨hfp, hnext, hcaller⟩ | ⟨pre', post', caller, -, hbody, hfp, hnext, hcaller⟩
  · rw [hfp]
    exact ⟨2, 0, by decide, by decide, hnext, hcaller⟩
  · exact ⟨_, caller, hb.next_lt hbody (by simp), by omega, hnext, hcaller⟩

theorem matches_ret (hb : b.WellFormed body) (h : Inside b body m pre (.ret :: post))
    (hpops : 1 ≤ depth 0 pre) (hs : m.stack.AgreeBelow m.sp s) (next : Nat) :
    Matches (Machine.execute .ret next m) (Machine.execute .ret next { m with stack := s }) := by
  have hsp := h.sp
  have hthree := h.chain.three_le
  have hfp : m.fp ≤ m.sp := by omega
  obtain ⟨addr, caller, haddr, hcaller, hsaved, hsaved'⟩ := h.saved_words hb
  have hnext := hs (m.fp - 2) (by omega)
  have hback := hs (m.fp - 1) (by omega)
  rw [execute_ret hthree hfp h.room haddr hcaller hsaved hsaved',
    execute_ret (m := { m with stack := s }) hthree hfp h.room haddr hcaller (hnext.trans hsaved)
      (hback.trans hsaved')]
  dsimp only
  rw [hs (m.sp - 1) (by omega)]
  exact .ok () (twin_of_agreeBelow ((hs.set _ _).mono (by dsimp only; omega)))

theorem matches_execute (hb : b.WellFormed body) (h : Inside b body m pre (i :: post))
    (hs : m.stack.AgreeBelow m.sp s) : Matches (Machine.execute i (m.ip + i.width) m)
      (Machine.execute i (m.ip + i.width) { m with stack := s }) := by
  have hlegal := hb.legal h.split
  have hsp := h.sp
  cases i with
  | nop => exact .ok () (twin_of_agreeBelow hs)
  | push w => exact matches_push hs w
  | load k =>
    have hk := hlegal.slot k rfl
    have hslot := h.slot_lt hk
    rw [execute_load hslot, execute_load (m := { m with stack := s }) hslot]
    dsimp only
    rw [hs (m.fp + k) (by omega)]
    exact matches_push hs _
  | store k => exact h.matches_store (hlegal.slot k rfl) hlegal.pops hs _
  | arith op => exact h.matches_arith hlegal.pops hs _
  | branch test target => exact h.matches_branch hlegal.pops hs _
  | goto target => exact .ok () (twin_of_agreeBelow hs)
  | call target =>
    have hpops : 1 ≤ depth 0 pre := hlegal.pops
    have hnext : m.ip + 2 < Word.sizeLimit := by
      rw [h.ip]
      exact hb.next_lt h.split (by simp)
    exact matches_call hs (by omega) h.holds.capacity hnext (by omega) (h.holds.param_lt hb)
  | ret => exact h.matches_ret hb hlegal.pops hs _
  | stop => exact hlegal.target.elim

end Inside

variable {b : Bytecode} {body : List Instruction} {m n m' : Machine}

theorem Framed.matches_step (hb : b.WellFormed body) (h : Framed b body m) (htwin : m.Twin n) :
    Matches (Machine.step m) (Machine.step n) := by
  obtain ⟨s, hs, rfl⟩ := htwin.exists_agreeBelow
  rcases h with h | ⟨pre, post, h⟩
  · have hsp := h.sp
    have hfp := h.fp
    rcases h.ip with ⟨hip, -⟩ | hip
    · have hnext : m.ip + 2 < Word.sizeLimit := by
        rw [hip]
        decide
      refine matches_of_fetch (hb.fetch_start h.holds.code hip) ?_
      exact matches_call hs (by omega) h.holds.capacity hnext (by omega) (h.holds.param_lt hb)
    · exact matches_of_fetch (hb.fetch_stop h.holds.code hip) (.ok () (twin_of_agreeBelow hs))
  · cases post with
    | nil =>
      have hfetch := h.fetch_nil hb
      rw [Machine.step, Machine.step, hfetch, show fetch { m with stack := s } = _ from hfetch]
      exact .error _ htwin
    | cons i post =>
      exact matches_of_fetch (h.fetch_cons hb) (h.matches_execute hb hs)

/-- Twins stay twins, step by step, up to the first step that fails and with it. -/
theorem Framed.matches_stepFor (hb : b.WellFormed body) (h : Framed b body m) (htwin : m.Twin n)
    (k : Nat) : Matches (stepFor k m) (stepFor k n) := by
  induction k with
  | zero => exact .ok () htwin
  | succ k ih =>
    refine ih.bind fun _ m₁ n₁ hsteps htwin₁ => ?_
    have hframed := (reaches_of_stepFor hsteps).framed hb h
    exact hframed.matches_step hb htwin₁

theorem Framed.matches_runFor (hb : b.WellFormed body) (h : Framed b body m) (htwin : m.Twin n)
    (bound : Nat) : Matches (runFor bound m) (runFor bound n) := by
  induction bound generalizing m n with
  | zero =>
    obtain ⟨s, -, rfl⟩ := htwin.exists_agreeBelow
    exact .ok _ htwin
  | succ bound ih =>
    have hhalted : n.halted = m.halted := by rw [htwin.same]
    rw [runFor_bind, runFor_bind, hhalted]
    split
    · exact .ok true htwin
    · refine (h.matches_step hb htwin).bind fun _ m₁ n₁ hstep htwin₁ => ?_
      exact ih (h.of_step hb hstep) htwin₁

theorem Framed.of_runFor (hb : b.WellFormed body) (h : Framed b body m) {bound : Nat} {halted : Bool}
    (hrun : runFor bound m = .ok halted m') : Framed b body m' ∧ m'.halted = halted := by
  induction bound generalizing m with
  | zero =>
    cases hrun
    exact ⟨h, rfl⟩
  | succ bound ih =>
    rw [runFor_bind] at hrun
    split at hrun
    · next hm =>
      cases hrun
      exact ⟨h, hm⟩
    · obtain ⟨_, m₁, hstep, hrest⟩ := bind_eq_ok.1 hrun
      exact ih (h.of_step hb hstep) hrest

/-- Twins that have come to the end of a run have the same result. -/
theorem Framed.read_result (h : Framed b body m) (hm : m.halted = true) (htwin : m.Twin n) :
    ∃ result, read 0 m = .ok result m ∧ read 0 n = .ok result n := by
  obtain ⟨-, hsp, -, result, hread, -⟩ := h.halted hm
  obtain ⟨hroom, rfl⟩ := of_read hread
  obtain ⟨s, hs, rfl⟩ := htwin.exists_agreeBelow
  refine ⟨m.stack.get 0, hread, ?_⟩
  rw [read_eq (m := { m with stack := s }) hroom]
  exact congrArg (EStateM.Result.ok · _) (hs 0 (by omega))

/-- Stale words never matter to compiled code. Wherever it has got to, a machine with other words at `sp`
and above goes on in the same way up to the first step that fails, and that step fails alike. After each
step the registers and the words below `sp` are the same, and a run that comes to its end has the same
result. -/
theorem stale_words_unseen {source : String} {limits : Limits} {arg : Word} {m₀ m n : Machine}
    (hcode : limits.code ≤ Word.sizeLimit) (hstack : limits.stack ≤ Word.sizeLimit)
    (hcompile : compile source limits.code = .ok b)
    (hreset : reset arg (.load b limits) = .ok () m₀) (hreaches : m₀.Reaches m) (htwin : m.Twin n) :
    (∀ k, Matches (stepFor k m) (stepFor k n)) ∧
    (∀ bound, Matches (runFor bound m) (runFor bound n)) ∧
    ∀ bound m', runFor bound m = .ok true m' → ∃ n' result, runFor bound n = .ok true n' ∧
      read 0 m' = .ok result m' ∧ read 0 n' = .ok result n' := by
  obtain ⟨body, hb⟩ := exists_wellFormed hcompile hcode
  have hframed := hreaches.framed hb (framed_reset hstack hreset)
  refine ⟨hframed.matches_stepFor hb htwin, hframed.matches_runFor hb htwin, fun bound m' hrun => ?_⟩
  obtain ⟨n', hrun', htwin'⟩ := (hframed.matches_runFor hb htwin bound).of_ok hrun
  obtain ⟨hframed', hhalted⟩ := hframed.of_runFor hb hrun
  obtain ⟨result, hread, hread'⟩ := hframed'.read_result hhalted htwin'
  exact ⟨n', result, hrun', hread, hread'⟩

/-- A word is left over where the call that comes next has the variable `x`. The variable is zero all the
same. -/
theorem stale_words_unseen_variable : ∃ b m₀ m n n',
    compile "f(n) \x7b if (n > 0) x = f(n - 1) + x; else x = x + 5; return x; \x7d" 64 = .ok b ∧
    reset 1 (.load b ⟨64, 64⟩) = .ok () m₀ ∧ m₀.Reaches m ∧ m.Twin n ∧
    m.fetch = .ok (.call 3) ∧ m.stack.get (m.sp + 4) = 0 ∧ n.stack.get (n.sp + 4) = 77 ∧
    runFor 40 n = .ok true n' ∧ read 0 n' = .ok 5 n' := by
  have hrun : ((compile "f(n) \x7b if (n > 0) x = f(n - 1) + x; else x = x + 5; return x; \x7d"
      64).toOption.bind fun b =>
      (do
        reset 1; stepFor 7; let m ← get
        let halted ← runFor 40
        let result ← read 0
        return (m.fetch.toOption, m.stack.get (m.sp + 4), halted, result) :
          Action (Option Instruction × Word × Bool × Word)).run' (.load b ⟨64, 64⟩)) =
      some (some (.call 3), 0, true, 5) := by
    decide +kernel
  obtain ⟨b, hb, hrun⟩ := Option.bind_eq_some_iff.1 hrun
  have hcompile := eq_ok_of_toOption hb
  obtain ⟨_, hrun⟩ := run'_eq_some.1 hrun
  obtain ⟨_, m₀, hreset, hrun⟩ := bind_eq_ok.1 hrun
  obtain ⟨_, m, hsteps, hrun⟩ := bind_eq_ok.1 hrun
  rw [get_bind] at hrun
  obtain ⟨halted, m', hends, hrun⟩ := bind_eq_ok.1 hrun
  obtain ⟨result, _, hread, hrun⟩ := bind_eq_ok.1 hrun
  obtain ⟨hvalues, -⟩ := pure_eq_ok.1 hrun
  simp only [Prod.mk.injEq] at hvalues
  obtain ⟨hfetch, hzero, rfl, rfl⟩ := hvalues
  have hreaches := reaches_of_stepFor hsteps
  have htwin : m.Twin { m with stack := m.stack.set (m.sp + 4) 77 } :=
    twin_of_agreeBelow fun j hj => by rw [Stack.get_set, if_neg (by omega)]
  obtain ⟨-, -, hresult⟩ := stale_words_unseen
    (show (⟨64, 64⟩ : Limits).code ≤ Word.sizeLimit by decide) (by decide) hcompile hreset hreaches htwin
  obtain ⟨n', result, hends', hread', hreadn⟩ := hresult 40 m' hends
  rw [hread] at hread'
  cases hread'
  refine ⟨b, m₀, m, _, n', hcompile, hreset, hreaches, htwin, eq_ok_of_toOption hfetch, hzero, ?_,
    hends', hreadn⟩
  exact (Stack.get_set _ _ _ _).trans (if_pos rfl)

/-- A machine that is stepped on after a division by zero lacks operands that the code counts on, and takes
words of its frame for them. Here the sum adds to the saved frame pointer, and what is loaded as `x` after
the return is an operand that was left over. -/
theorem stale_words_seen_past_fault : ∃ b m₀ m n,
    compile "x(x) \x7b if (x == 8) return 1 + 1 / 0; else ; x = 1 + (1 + (1 + (1 + (1 + (1 + (1 + 7)))))); return x(8) + x; \x7d"
      100 = .ok b ∧
    reset 1 (.load b ⟨100, 100⟩) = .ok () m₀ ∧ m₀.Reaches m ∧ m.Twin n ∧
    (perform (List.replicate 13 step) m).1 =
      List.replicate 8 none ++ some ⟨15, .divisionByZero⟩ :: List.replicate 4 none ∧
    (perform (List.replicate 13 step) n).1 =
      List.replicate 8 none ++ some ⟨15, .divisionByZero⟩ :: List.replicate 4 none ∧
    (perform (List.replicate 13 step) m).2.live = [1, 2, 0, 14, 11, 7] ∧
    (perform (List.replicate 13 step) n).2.live = [1, 2, 0, 14, 11, 0] := by
  have hrun : ((compile
      "x(x) \x7b if (x == 8) return 1 + 1 / 0; else ; x = 1 + (1 + (1 + (1 + (1 + (1 + (1 + 7)))))); return x(8) + x; \x7d"
      100).toOption.bind fun b =>
      (do
        reset 1; stepFor 20; let m ← get
        let first := perform (List.replicate 13 step) m
        let second := perform (List.replicate 13 step) { m with stack := m.stack.set 11 0 }
        return (m.sp, [first.1, second.1], [first.2.live, second.2.live]) :
          Action (Nat × List (List (Option Fault)) × List (List Word))).run' (.load b ⟨100, 100⟩)) =
      some (4, List.replicate 2 (List.replicate 8 none ++ some ⟨15, .divisionByZero⟩ :: List.replicate 4 none),
        [[1, 2, 0, 14, 11, 7], [1, 2, 0, 14, 11, 0]]) := by
    decide +kernel
  obtain ⟨b, hb, hrun⟩ := Option.bind_eq_some_iff.1 hrun
  obtain ⟨_, hrun⟩ := run'_eq_some.1 hrun
  obtain ⟨_, m₀, hreset, hrun⟩ := bind_eq_ok.1 hrun
  obtain ⟨_, m, hsteps, hrun⟩ := bind_eq_ok.1 hrun
  rw [get_bind] at hrun
  obtain ⟨hvalues, -⟩ := pure_eq_ok.1 hrun
  obtain ⟨hsp, hvalues⟩ := Prod.mk.inj hvalues
  obtain ⟨hanswers, hlives⟩ := Prod.mk.inj hvalues
  obtain ⟨hfirst, hanswers⟩ := List.cons.inj hanswers
  obtain ⟨hlive, hlives⟩ := List.cons.inj hlives
  have htwin : m.Twin { m with stack := m.stack.set 11 0 } :=
    twin_of_agreeBelow fun j hj => by rw [Stack.get_set, if_neg (by omega)]
  exact ⟨b, m₀, m, _, eq_ok_of_toOption hb, hreset, reaches_of_stepFor hsteps, htwin, hfirst,
    (List.cons.inj hanswers).1, hlive, (List.cons.inj hlives).1⟩

end Solo
