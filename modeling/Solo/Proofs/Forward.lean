import Solo.Proofs.Calls
import Solo.Proofs.Jumps
import Solo.Proofs.StackRoom

/-! Programs without loops and calls end. All jumps in their code go forward, so every step but the
return takes the machine to a larger address, and a run takes no more steps than there are instructions.
That holds for a stack of any size: such code fills less of the stack than what would no longer fit into
a word, so with more room than that nothing changes. -/

namespace Solo

open Bytecode (bodyAddr addressedFrom)
open Instruction (settle)
open Machine Grammar

namespace Grammar

variable {slot : String → Nat} {target : Nat}

/-- Somewhere in `ts` a parenthesis is opened right behind a name. -/
def HasCall (ts : List Token) : Prop := ∃ x k, [.ident x k, .punct .lparen] <:+: ts

theorem HasCall.mono {ts us : List Token} (h : HasCall ts) (hadj : ts <:+: us) : HasCall us := by
  obtain ⟨x, k, hcall⟩ := h
  exact ⟨x, k, hcall.trans hadj⟩

/-- The name and the parenthesis are neighbours. -/
theorem mem_zip_of_adjacent {ts : List Token} {t u : Token} (h : [t, u] <:+: ts) :
    (t, u) ∈ ts.zip ts.tail := by
  obtain ⟨pre, post, rfl⟩ := h
  induction pre with
  | nil => exact List.mem_cons_self
  | cons v pre ih =>
    obtain ⟨w, ws, hw⟩ := List.exists_cons_of_ne_nil (show pre ++ [t, u] ++ post ≠ [] by simp)
    rw [hw] at ih
    rw [List.cons_append, List.cons_append, hw]
    exact List.mem_cons_of_mem _ ih

mutual

theorem Expression.hasCall : (e : Expression) → .call target ∈ e.code slot → HasCall (e.tokens slot)
  | .term t, h => t.hasCall h
  | .sum e op t, h => by
    simp only [Expression.code, List.mem_append, List.mem_singleton, reduceCtorEq, or_false] at h
    rcases h with h | h
    · exact (e.hasCall h).mono (List.infix_append [] _ _)
    · exact (t.hasCall h).mono ⟨e.tokens slot ++ [.punct op.punct], [], by simp [Expression.tokens]⟩

theorem Term.hasCall : (t : Term) → .call target ∈ t.code slot → HasCall (t.tokens slot)
  | .factor f, h => f.hasCall h
  | .product f op t, h => by
    simp only [Term.code, List.mem_append, List.mem_singleton, reduceCtorEq, or_false] at h
    rcases h with h | h
    · exact (f.hasCall h).mono (List.infix_append [] _ _)
    · exact (t.hasCall h).mono ⟨f.tokens slot ++ [.punct op.punct], [], by simp [Term.tokens]⟩

theorem Factor.hasCall : (f : Factor) → .call target ∈ f.code slot → HasCall (f.tokens slot)
  | .number _, h => by simp [Factor.code] at h
  | .name _, h => by simp [Factor.code] at h
  | .group e, h => (e.hasCall h).mono ⟨[.punct .lparen], [.punct .rparen], rfl⟩
  | .call x arg, _ =>
    ⟨x, slot x, [], arg.tokens slot ++ [.punct .rparen], by simp [Factor.tokens, inParens]⟩

end

theorem Condition.hasCall {otherwise : Nat} (c : Condition) (h : .call target ∈ c.code slot otherwise) :
    HasCall (c.tokens slot) := by
  simp only [Condition.code, List.mem_append, List.mem_singleton, reduceCtorEq, or_false] at h
  rcases h with h | h
  · exact (c.left.hasCall h).mono ⟨[.punct .lparen],
      .punct c.relation.punct :: c.right.tokens slot ++ [.punct .rparen],
      by simp [Condition.tokens, inParens]⟩
  · exact (c.right.hasCall h).mono ⟨.punct .lparen :: c.left.tokens slot ++ [.punct c.relation.punct],
      [.punct .rparen], by simp [Condition.tokens, inParens]⟩

mutual

theorem Statement.hasCall : (s : Statement) → {addr : Nat} → .call target ∈ s.code slot addr →
    HasCall (s.tokens slot)
  | .assign x e, _, h => by
    simp only [Statement.code, List.mem_append, List.mem_singleton, reduceCtorEq, or_false] at h
    exact (e.hasCall h).mono ⟨[.ident x (slot x), .punct .assign], [.punct .semicolon], rfl⟩
  | .ifElse c yes no, addr, h => by
    simp only [Statement.code, List.mem_append, List.mem_singleton, reduceCtorEq, or_false] at h
    rcases h with (h | h) | h
    · exact (c.hasCall h).mono ⟨[.keyword .ifK],
        yes.tokens slot ++ .keyword .elseK :: no.tokens slot, by simp [Statement.tokens]⟩
    · exact (yes.hasCall h).mono ⟨.keyword .ifK :: c.tokens slot,
        .keyword .elseK :: no.tokens slot, by simp [Statement.tokens]⟩
    · exact (no.hasCall h).mono ⟨.keyword .ifK :: c.tokens slot ++ yes.tokens slot ++ [.keyword .elseK],
        [], by simp [Statement.tokens]⟩
  | .whileDo c body, addr, h => by
    simp only [Statement.code, List.mem_append, List.mem_singleton, reduceCtorEq, or_false] at h
    rcases h with h | h
    · exact (c.hasCall h).mono ⟨[.keyword .whileK], body.tokens slot, by simp [Statement.tokens]⟩
    · exact (body.hasCall h).mono ⟨.keyword .whileK :: c.tokens slot, [], by simp [Statement.tokens]⟩
  | .ret e, _, h => by
    simp only [Statement.code, List.mem_append, List.mem_singleton, reduceCtorEq, or_false] at h
    exact (e.hasCall h).mono ⟨[.keyword .returnK], [.punct .semicolon], rfl⟩
  | .block b, _, h => (b.hasCall h).mono ⟨[.punct .lbrace], [.punct .rbrace], rfl⟩
  | .skip, _, h => absurd h List.not_mem_nil

theorem Block.hasCall : (b : Block) → {addr : Nat} → .call target ∈ b.code slot addr →
    HasCall (b.tokens slot)
  | .nil, _, h => absurd h List.not_mem_nil
  | .cons s b, addr, h => by
    simp only [Block.code, List.mem_append] at h
    rcases h with h | h
    · exact (s.hasCall h).mono (List.infix_append [] _ _)
    · exact (b.hasCall h).mono ⟨s.tokens slot, [], by simp [Block.tokens]⟩

end

variable {c : Condition} {body : Statement} {place : Nat}

mutual

theorem Statement.while_mem : (s : Statement) → {addr : Nat} →
    (place, .whileDo c body) ∈ s.places addr → .keyword .whileK ∈ s.tokens slot
  | .assign _ _, _, h | .ret _, _, h | .skip, _, h => by simp [Statement.places] at h
  | .ifElse c' yes no, addr, h => by
    simp only [Statement.places, List.mem_cons, List.mem_append, Prod.mk.injEq, reduceCtorEq, and_false,
      false_or] at h
    rcases h with h | h
    · simp [Statement.tokens, yes.while_mem h]
    · simp [Statement.tokens, no.while_mem h]
  | .whileDo c' body', _, _ => by simp [Statement.tokens]
  | .block b, addr, h => by
    simp only [Statement.places, List.mem_cons, Prod.mk.injEq, reduceCtorEq, and_false, false_or] at h
    simp [Statement.tokens, inBraces, b.while_mem h]

theorem Block.while_mem : (b : Block) → {addr : Nat} → (place, .whileDo c body) ∈ b.places addr →
    .keyword .whileK ∈ b.tokens slot
  | .nil, _, h => absurd h List.not_mem_nil
  | .cons s b, addr, h => by
    rcases List.mem_append.1 h with h | h
    · exact List.mem_append_left _ (s.while_mem h)
    · exact List.mem_append_right _ (b.while_mem h)

end

end Grammar

/-- Nothing in the body is a call, and all that goes anywhere goes forward. -/
structure Forward (body : List Instruction) : Prop where
  calls : ∀ target, .call target ∉ body
  jumps : ∀ addr i target, (addr, i) ∈ addressedFrom bodyAddr body → i.target? = some target →
    addr < target

theorem Grammar.Program.forward (p : Program) {slot : String → Nat}
    (hloops : .keyword .whileK ∉ p.body.tokens slot) (hcalls : ¬ HasCall (p.body.tokens slot)) :
    Forward (p.body.code slot bodyAddr ++ [.nop]) := by
  have hcall : ∀ target, .call target ∉ p.body.code slot bodyAddr ++ [.nop] := by
    intro target hmem
    simp only [List.mem_append, List.mem_singleton, reduceCtorEq, or_false] at hmem
    exact hcalls (p.body.hasCall hmem)
  refine ⟨hcall, fun addr i target hi htarget => ?_⟩
  have hcode : (addr, i) ∈ addressedFrom 0 (p.code slot) := by
    rw [Program.code, List.append_assoc, addressedFrom_append]
    exact List.mem_append_right _ hi
  have hdirected := p.directed slot addr i hcode
  cases i with
  | branch test addr' =>
    cases htarget
    exact hdirected
  | goto addr' =>
    cases htarget
    rcases hdirected with hlt | ⟨c, s, hplace, -⟩
    · exact hlt
    · exact absurd (p.body.while_mem hplace) hloops
  | call addr' =>
    obtain ⟨pre, post, hbody, -⟩ := exists_of_mem_addressedFrom hi
    exact absurd (by rw [hbody]; simp) (hcall addr')
  | _ => cases htarget

section

variable {body : List Instruction} {frameSize : Nat}

/-- An operand takes two words of code to be pushed. -/
theorem Checked.depth_le {d : Nat} {is : List Instruction} (h : Checked body frameSize d is) :
    2 * depth d is ≤ 2 * d + width is := by
  induction is generalizing d with
  | nil => exact Nat.le_refl _
  | cons i is ih =>
    have hpops := h.1.pops
    have hrest := ih h.2
    have hstep : 2 * settle d i ≤ 2 * d + i.width := by
      cases i <;> simp only [settle, Instruction.pops, Instruction.pushes, Instruction.width,
        Instruction.operand, Option.isSome_some, Option.isSome_none, Bool.false_eq_true, if_true,
        if_false] at hpops ⊢ <;> omega
    rw [width_cons]
    change 2 * depth (settle d i) is ≤ _
    omega

/-- It takes a word of code to be popped. -/
theorem le_depth (d : Nat) (is : List Instruction) : d ≤ depth d is + width is := by
  induction is generalizing d with
  | nil => exact Nat.le_refl _
  | cons i is ih =>
    have hrest := ih (settle d i)
    have hstep : d ≤ settle d i + i.width := by
      cases i <;> simp only [settle, Instruction.pops, Instruction.pushes, Instruction.width,
        Instruction.operand, Option.isSome_some, Option.isSome_none, Bool.false_eq_true, if_true,
        if_false] <;> omega
    rw [width_cons]
    change _ ≤ depth (settle d i) is + _
    omega

/-- The operands and one frame take fewer words than there are addresses. -/
theorem Bytecode.WellFormed.frame_lt {b : Bytecode} (hb : b.WellFormed body) (hend : depth 0 body = 0)
    {pre post : List Instruction} (hbody : body = pre ++ post) :
    3 + b.frameSize + depth 0 pre < Word.sizeLimit := by
  have hframe := hb.frame
  have hsmall := hb.small
  have hchecked := hb.checked
  rw [congrArg (Checked body b.frameSize 0) hbody, checked_append] at hchecked
  have hpre := hchecked.1.depth_le
  have hpost := le_depth (depth 0 pre) post
  rw [← depth_append, ← hbody, hend] at hpost
  rw [hb.wordCount_eq, hbody, width_append] at hframe hsmall
  simp only [bodyAddr, Word.sizeLimit] at *
  omega

end

variable {b : Bytecode} {body pre post : List Instruction} {m : Machine}

/-- What an instruction that is no call and no return may do: go on in the same frame, to the next
instruction or to where it says, or fail, and for want of room only if the stack is full. -/
def KeepsFrame (m : Machine) (i : Instruction) : EStateM.Result Fault Machine Unit → Prop
  | .ok _ m' => m'.fp = m.fp ∧ (m'.ip = m.ip + i.width ∨ i.target? = some m'.ip)
  | .error f _ => f.IsOverflow → m.capacity ≤ m.sp

theorem keepsFrame_push {i : Instruction} (w : Word) :
    KeepsFrame m i (execute (.push w) (m.ip + i.width) m) := by
  rw [execute_push]
  split
  · exact ⟨rfl, .inl rfl⟩
  · next hfull => exact fun _ => Nat.le_of_not_lt hfull

theorem Inside.keepsFrame (hb : b.WellFormed body) {i : Instruction} (h : Inside b body m pre (i :: post))
    (hcall : ∀ target, i ≠ .call target) (hret : i ≠ .ret) :
    KeepsFrame m i (Machine.execute i (m.ip + i.width) m) := by
  have hlegal := hb.legal h.split
  have hpops := hlegal.pops
  have hsp := h.sp
  have hroom := h.room
  cases i with
  | nop => exact ⟨rfl, .inl rfl⟩
  | push w => exact keepsFrame_push w
  | load k =>
    rw [execute_load (h.slot_lt (hlegal.slot k rfl))]
    exact keepsFrame_push _
  | store k =>
    change 1 ≤ depth 0 pre at hpops
    rw [execute_store (by omega) hroom (h.slot_lt (hlegal.slot k rfl))]
    exact ⟨rfl, .inl rfl⟩
  | arith op =>
    change 2 ≤ depth 0 pre at hpops
    rw [execute_arith (by omega) hroom]
    split
    · exact ⟨rfl, .inl rfl⟩
    · rintro ⟨capacity, hcause⟩
      cases hcause
  | branch test target =>
    change 2 ≤ depth 0 pre at hpops
    rw [execute_branch (by omega) hroom]
    refine ⟨rfl, ?_⟩
    by_cases htest : test.holds (m.stack.get (m.sp - 2)) (m.stack.get (m.sp - 1))
    · exact .inr (congrArg some (if_pos htest).symm)
    · exact .inl (if_neg htest)
  | goto target => exact ⟨rfl, .inr rfl⟩
  | call target => exact absurd rfl (hcall target)
  | ret => exact absurd rfl hret
  | stop => exact hlegal.target.elim

/-- The return from the lowest frame goes to the stop. -/
theorem Inside.ret_lowest (hb : b.WellFormed body) (h : Inside b body m pre (.ret :: post))
    (hfp : m.fp = 3) : ∃ m', step m = .ok () m' ∧ Outside b m' ∧ m'.ip = 2 := by
  have hsp := h.sp
  have hroom := h.room
  rcases h.chain.inv with ⟨-, hnext, hcaller⟩ | ⟨pre', post', caller, hbelow, -, hframe, -⟩
  · have hsaved : m.stack.get (m.fp - 2) = .ofSize 2 := by rw [hfp]; exact hnext
    have hsaved' : m.stack.get (m.fp - 1) = .ofSize 0 := by rw [hfp]; exact hcaller
    rw [step_of_fetch (h.fetch_cons hb),
      execute_ret (by omega) (by omega) hroom (by decide) (by decide) hsaved hsaved']
    have hone : m.fp - 2 = 1 := by omega
    refine ⟨_, rfl, ⟨h.holds, rfl, hone, ?_, .inr rfl⟩, rfl⟩
    change m.fp - 2 ≤ m.capacity
    omega
  · have := hbelow.three_le
    omega

/-- A larger address in the body has less of the body behind it. -/
theorem length_le_of_width_lt {i : Instruction} {pre' post' : List Instruction}
    (h : pre ++ i :: post = pre' ++ post') (hlt : width pre < width pre') :
    post'.length ≤ post.length := by
  obtain ⟨more, rfl, hmore⟩ | ⟨more, rfl, -⟩ := List.append_eq_append_iff.1 h
  · cases more with
    | nil =>
      rw [List.append_nil] at hlt
      omega
    | cons j more =>
      have hlength := congrArg List.length (List.cons.inj hmore).2
      simp only [List.append_eq, List.length_append] at hlength
      omega
  · rw [width_append] at hlt
    omega

/-- The step has left the call, or stays in its frame with at most `n` instructions to come, or it has
failed, and for want of room only if the stack could hold more. -/
def Advances (b : Bytecode) (body : List Instruction) (capacity n : Nat) :
    EStateM.Result Fault Machine Unit → Prop
  | .ok _ m => (Outside b m ∧ m.ip = 2) ∨
      ∃ pre post, Inside b body m pre post ∧ m.fp = 3 ∧ post.length ≤ n
  | .error f _ => f.IsOverflow → capacity < Word.sizeLimit

/-- In the lowest frame of code that goes forward, each step leaves less to come. -/
theorem Inside.step_advances (hb : b.WellFormed body) (hf : Forward body) (hend : depth 0 body = 0)
    {i : Instruction} (h : Inside b body m pre (i :: post)) (hfp : m.fp = 3) :
    Advances b body m.capacity post.length (step m) := by
  by_cases hret : i = .ret
  · subst hret
    obtain ⟨m', hstep, hout⟩ := h.ret_lowest hb hfp
    rw [hstep]
    exact .inl hout
  · have hcall : ∀ target, i ≠ .call target := by
      rintro target rfl
      exact hf.calls target (by rw [h.split]; simp)
    have hkeeps := h.keepsFrame hb hcall hret
    rw [← step_of_fetch (h.fetch_cons hb)] at hkeeps
    cases hstep : step m with
    | error f m' =>
      rw [hstep] at hkeeps
      intro hover
      have hfull := hkeeps hover
      have hlt := hb.frame_lt hend h.split
      rw [h.sp, hfp] at hfull
      omega
    | ok _ m' =>
      rw [hstep] at hkeeps
      obtain ⟨hsame, hip⟩ := hkeeps
      rcases Framed.of_step hb (.inr ⟨_, _, h⟩) hstep with hout | ⟨pre', post', hin⟩
      · have := hout.fp
        omega
      · refine .inr ⟨pre', post', hin, hsame.trans hfp, ?_⟩
        have hlt : m.ip < m'.ip := by
          rcases hip with hip | hip
          · have := i.width_pos
            omega
          · refine hf.jumps m.ip i _ ?_ hip
            rw [h.split, h.ip]
            exact mem_addressedFrom _ _ _ _
        rw [h.ip, hin.ip] at hlt
        exact length_le_of_width_lt (h.split.symm.trans hin.split) (by omega)

/-- The run has ended: what it has come to passes as an end, or a step has failed, and for want of room
only if the stack could hold more. -/
def Ended {α : Type} (isEnd : α → Bool) (capacity : Nat) : EStateM.Result Fault Machine α → Prop
  | .ok a _ => isEnd a = true
  | .error f _ => f.IsOverflow → capacity < Word.sizeLimit

theorem runFor_of_halted (h : m.halted = true) (n : Nat) : runFor n m = .ok true m := by
  cases n with
  | zero => exact congrArg (EStateM.Result.ok · m) h
  | succ n => rw [runFor_bind, if_pos h]

theorem Outside.runFor_stop (hb : b.WellFormed body) (h : Outside b m) (hip : m.ip = 2) (n : Nat) :
    ∃ m', runFor (n + 1) m = .ok true m' := by
  rw [runFor_bind]
  split
  · exact ⟨m, rfl⟩
  · rw [bind_of_ok (h.stop hb hip), runFor_of_halted rfl]
    exact ⟨_, rfl⟩

/-- From a place in the body a run takes at most one step for each instruction that is still to come, and
one to stop or to find that there is no return. -/
theorem Inside.runFor_ended (hb : b.WellFormed body) (hf : Forward body) (hend : depth 0 body = 0)
    (n : Nat) (h : Inside b body m pre post) (hfp : m.fp = 3) (hn : post.length < n) :
    Ended id m.capacity (runFor n m) := by
  induction n generalizing m pre post with
  | zero => omega
  | succ n ih =>
    rw [runFor_bind, if_neg (by rw [h.running]; simp)]
    cases post with
    | nil =>
      have hfails : step m = .error ⟨m.ip, .illegal .noReturn⟩ m := by
        rw [Machine.step, h.fetch_nil hb]
      rw [bind_of_error hfails]
      rintro ⟨capacity, hcause⟩
      cases hcause
    | cons i post =>
      have hadvances := h.step_advances hb hf hend hfp
      have hkeeps := Grows.step.keeps m
      rw [List.length_cons] at hn
      cases hstep : step m with
      | error f m' =>
        rw [hstep] at hadvances
        rw [bind_of_error hstep]
        exact hadvances
      | ok _ m' =>
        rw [hstep] at hadvances hkeeps
        rw [bind_of_ok hstep]
        rcases hadvances with ⟨hout, hip⟩ | ⟨pre', post', hin, hfp', hless⟩
        · obtain ⟨k, rfl⟩ : ∃ k, n = k + 1 := ⟨n - 1, by omega⟩
          obtain ⟨m'', hrun⟩ := hout.runFor_stop hb hip k
          rw [hrun]
          exact rfl
        · have hended := ih hin hfp' (by omega)
          rwa [show m'.capacity = m.capacity from hkeeps] at hended

/-- A whole run takes at most as many steps as there are instructions. -/
theorem Outside.runFor_ended (hb : b.WellFormed body) (hf : Forward body) (hend : depth 0 body = 0)
    (h : Outside b m) (hip : m.ip = 0) (hrunning : m.halted = false) :
    Ended id m.capacity (runFor b.instructions.length m) := by
  have hlength : b.instructions.length = body.length + 1 + 1 := by rw [hb.instructions]; rfl
  have hkeeps := Grows.step.keeps m
  rw [hlength, runFor_bind, if_neg (by rw [hrunning]; simp)]
  cases hstep : step m with
  | error f m' =>
    rw [bind_of_error hstep]
    have hsp := h.sp
    have hlt := hb.frame_lt hend (List.nil_append body).symm
    rw [step_of_fetch (hb.fetch_start h.holds.code hip), execute_call (by omega) h.holds.capacity
      (by rw [hip]; decide) (by rw [h.fp]; omega) (h.holds.param_lt hb), h.holds.frameSize] at hstep
    split at hstep
    · cases hstep
    · intro _
      omega
  | ok _ m' =>
    rw [hstep] at hkeeps
    rw [bind_of_ok hstep]
    have hframed := Framed.of_step hb (.inl h) hstep
    have henters : Enters (m.ip + 2) m m' := by
      rw [step_of_fetch (hb.fetch_start h.holds.code hip)] at hstep
      exact enters_of_call hstep
    have hfp : m'.fp = 3 := by rw [henters.fp, h.sp]
    rcases hframed with hout | ⟨pre, post, hin⟩
    · have := hout.fp
      omega
    · have hended := hin.runFor_ended hb hf hend (body.length + 1) hfp (by
        rw [hin.split, List.length_append]
        omega)
      rwa [show m'.capacity = m.capacity from hkeeps] at hended

theorem run_ended (hb : b.WellFormed body) (hf : Forward body) (hend : depth 0 body = 0)
    {limits : Limits} (hstack : limits.stack ≤ Word.sizeLimit) (arg : Word) :
    Ended Option.isSome limits.stack (run b.instructions.length arg (.load b limits)) := by
  cases hreset : reset arg (.load b limits) with
  | error f m₀ =>
    rw [run, bind_of_error hreset]
    rw [reset_eq] at hreset
    split at hreset
    · cases hreset
    · next hroom =>
      intro _
      exact Nat.lt_of_le_of_lt (Nat.le_of_not_lt hroom) (by decide)
  | ok _ m₀ =>
    obtain ⟨hout, hip, hrunning, hcapacity⟩ := outside_reset hstack hreset
    have hended := hout.runFor_ended hb hf hend hip hrunning
    have hkeeps := (Grows.runFor b.instructions.length).keeps m₀
    rw [run, bind_of_ok hreset]
    cases hrun : runFor b.instructions.length m₀ with
    | error f m =>
      rw [hrun, hcapacity] at hended
      rw [bind_of_error hrun]
      exact hended
    | ok halted m =>
      rw [hrun] at hended hkeeps
      obtain rfl : halted = true := hended
      have hroom : 0 < m.capacity := by
        have hsp := hout.sp
        have hroom := hout.room
        rw [show m.capacity = m₀.capacity from hkeeps]
        omega
      rw [bind_of_ok hrun, if_pos rfl, bind_of_ok (read_eq hroom)]
      exact rfl

/-- With a larger stack the run is the same. -/
theorem run_ended_of_large (hb : b.WellFormed body) (hf : Forward body) (hend : depth 0 body = 0)
    {limits : Limits} (hstack : Word.sizeLimit ≤ limits.stack) (arg : Word) :
    Ended Option.isSome limits.stack (run b.instructions.length arg (.load b limits)) := by
  have hended : Ended Option.isSome Word.sizeLimit
      (run b.instructions.length arg (.load b ⟨limits.code, Word.sizeLimit⟩)) :=
    run_ended hb hf hend (Nat.le_refl _) arg
  obtain ⟨f, m', hrun, hover⟩ | hsame := (Grows.run b.instructions.length arg).same
    (.load b ⟨limits.code, Word.sizeLimit⟩) hstack
  · rw [hrun] at hended
    exact absurd (hended hover) (Nat.lt_irrefl _)
  · rw [show Machine.load b limits = withCapacity limits.stack (.load b ⟨limits.code, Word.sizeLimit⟩)
      from rfl, hsame]
    cases hrun : run b.instructions.length arg (.load b ⟨limits.code, Word.sizeLimit⟩) with
    | ok v m' =>
      rw [hrun] at hended
      exact hended
    | error f m' =>
      rw [hrun] at hended
      exact fun hover => absurd (hended hover) (Nat.lt_irrefl _)

/-- A source without loops and calls, where a call is a name with a parenthesis behind it other than the
one at the head of the function, runs to its end in at most as many steps as its code has
instructions. -/
theorem loop_free_runs_end {source : String} {limits : Limits}
    (hcode : limits.code ≤ Word.sizeLimit) (hcompile : compile source limits.code = .ok b)
    (hloops : .keyword .whileK ∉ (TokenStream.ofSource source).tokens)
    (hcalls : ∀ x k, ¬ [.ident x k, .punct .lparen] <:+: (TokenStream.ofSource source).tokens.drop 4)
    (arg : Word) :
    (∃ v m, run b.instructions.length arg (.load b limits) = .ok (some v) m) ∨
      ∃ fault m, run b.instructions.length arg (.load b limits) = .error fault m := by
  obtain ⟨ts, symbols, hlexes, hderives⟩ := derives_of_compile hcompile
  obtain ⟨p, hp⟩ := (sentence_iff_derives hlexes).2 hderives
  have hb := wellFormed_of_compile hcompile hcode hlexes hp
  obtain ⟨-, hts, -⟩ := (TokenStream.ofSource_eof_iff source ts symbols).1 hlexes
  -- the body stands in braces behind the four tokens of the head
  have hhead : ts.drop 4 = inBraces (p.body.tokens (slotIn ts)) := by
    conv => lhs; rw [← hp]
    rfl
  have hbody : p.body.tokens (slotIn ts) <:+: ts.drop 4 :=
    ⟨[.punct .lbrace], [.punct .rbrace], hhead.symm⟩
  rw [hts] at hloops hcalls
  have hf : Forward _ := p.forward (fun hmem => hloops (List.mem_of_mem_drop (hbody.subset hmem)))
    fun ⟨x, k, hadj⟩ => hcalls x k (hadj.trans hbody)
  have hend : depth 0 (p.body.code (slotIn ts) bodyAddr ++ [.nop]) = 0 := by
    rw [depth_append, Block.depth_code]
    rfl
  have hended : Ended Option.isSome limits.stack (run b.instructions.length arg (.load b limits)) :=
    (Nat.le_total limits.stack Word.sizeLimit).elim (run_ended hb hf hend · arg)
      (run_ended_of_large hb hf hend · arg)
  cases hrun : run b.instructions.length arg (.load b limits) with
  | ok v m =>
    rw [hrun] at hended
    obtain ⟨w, rfl⟩ := Option.isSome_iff_exists.1 hended
    exact .inl ⟨w, m, rfl⟩
  | error fault m => exact .inr ⟨fault, m, rfl⟩

/-- Here the stack is larger than what fits into a word. -/
theorem loop_free_runs_end_branching : ∃ b,
    compile "f(n) \x7b if (n > 2) return n / (n - 3); else n = 0 - n; return n; \x7d" 64 = .ok b ∧
    b.instructions.length = 19 ∧
    ((∃ v m, run 19 3 (.load b ⟨64, 2 * Word.sizeLimit⟩) = .ok (some v) m) ∨
      ∃ fault m, run 19 3 (.load b ⟨64, 2 * Word.sizeLimit⟩) = .error fault m) := by
  have hlength : (compile "f(n) \x7b if (n > 2) return n / (n - 3); else n = 0 - n; return n; \x7d"
      64).toOption.map (fun b => b.instructions.length) = some 19 := by
    decide +kernel
  obtain ⟨b, hb, hlength⟩ := Option.map_eq_some_iff.1 hlength
  have hpairs : ∀ p ∈ ((TokenStream.ofSource
      "f(n) \x7b if (n > 2) return n / (n - 3); else n = 0 - n; return n; \x7d").tokens.drop 4).zip
      ((TokenStream.ofSource
        "f(n) \x7b if (n > 2) return n / (n - 3); else n = 0 - n; return n; \x7d").tokens.drop 4).tail,
      p.1.name?.isSome = true → p.2 ≠ .punct .lparen := by
    decide +kernel
  have hends := loop_free_runs_end
    (show (⟨64, 2 * Word.sizeLimit⟩ : Limits).code ≤ Word.sizeLimit by decide)
    (eq_ok_of_toOption hb) (by decide +kernel)
    (fun x k hcall => hpairs _ (mem_zip_of_adjacent hcall) rfl rfl) 3
  rw [hlength] at hends
  exact ⟨b, eq_ok_of_toOption hb, hlength, hends⟩

end Solo
