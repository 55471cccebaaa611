import Solo.Proofs.Operations

/-! What a step leaves behind when it fails, whatever the code and whatever has been done to the machine
before. The fault names the instruction at `ip`, and `ip` stays there. Of the words on the stack only
operands that the instruction has taken off are lost, and nothing below them has changed. A return is the
exception: it drops its frame before it has found out where to go. -/

namespace Solo

/-- How many operands an instruction other than a return may have taken off when it fails. A call takes
its argument off only in that the frame is laid above it. -/
def Instruction.spill : Instruction → Nat
  | .store _ => 1
  | .arith _ | .branch _ _ => 2
  | .nop | .push _ | .load _ | .goto _ | .call _ | .ret | .stop => 0

theorem Stack.take_add (s : Stack) (i n : Nat) :
    s.take (i + n) = s.take i ++ (List.range n).map fun k => s.get (i + k) := by
  rw [take, List.range_add, List.map_append, List.map_map]
  rfl

namespace Machine

variable {α β : Type} {m m₁ m' : Machine} {f : Fault} {x : Action α} {g : α → Action β}

/-- The action leaves the machine as it was when it fails, and the fault is at the current
instruction; it is no division by zero. -/
def Clean (x : Action α) : Prop :=
  ∀ ⦃m f m'⦄, x m = .error f m' → m' = m ∧ f.ip = m.ip ∧ f.cause ≠ .divisionByZero

theorem clean_fail {cause : Fault.Cause} (hcause : cause ≠ .divisionByZero) :
    Clean (fail cause : Action α) := by
  intro m f m' h
  cases h
  exact ⟨rfl, rfl, hcause⟩

theorem clean_ensure (p : Prop) [Decidable p] {cause : Fault.Cause}
    (hcause : cause ≠ .divisionByZero) : Clean (ensure p cause) := by
  unfold ensure
  split
  · intro m f m' h
    cases h
  · exact clean_fail hcause

/-- An action that needs room and else fails at once. -/
theorem clean_of_room {n : Nat} (hx : ∀ m, n ≤ m.capacity → ∃ a m', x m = .ok a m')
    (hroom : ∀ m, ¬ n ≤ m.capacity → x m = overflow m) : Clean x := by
  intro m f m' h
  by_cases hn : n ≤ m.capacity
  · obtain ⟨a, m₁, hok⟩ := hx m hn
    rw [hok] at h
    cases h
  · rw [hroom m hn] at h
    cases h
    exact ⟨rfl, rfl, by simp⟩

theorem clean_ensureRoom (n : Nat) : Clean (ensureRoom n) :=
  clean_of_room (fun _ h => ⟨_, _, ensureRoom_eq h⟩) fun _ h => if_neg h

theorem clean_read (i : Nat) : Clean (read i) :=
  clean_of_room (n := i + 1) (fun _ h => ⟨_, _, read_eq h⟩) fun _ h => if_neg h

theorem clean_write (i : Nat) (w : Word) : Clean (write i w) :=
  clean_of_room (n := i + 1) (fun _ h => ⟨_, _, write_eq h w⟩) fun _ h => if_neg h

theorem clean_saved (value : Nat) : Clean (saved value) := by
  unfold saved
  split
  · intro m f m' h
    cases h
  · exact clean_fail (by simp)

theorem of_pop {w : Word} (h : pop m = .ok w m₁) : 0 < m.sp ∧ m₁ = { m with sp := m.sp - 1 } := by
  unfold pop at h
  split at h
  · cases h
  · next hsp => exact ⟨Nat.pos_of_ne_zero hsp, (looks_read _).eq_of_ok h⟩

theorem of_read {i : Nat} {w : Word} (h : read i m = .ok w m₁) : i < m.capacity ∧ m.stack.get i = w := by
  by_cases hi : i < m.capacity
  · rw [read_eq hi] at h
    cases h
    exact ⟨hi, rfl⟩
  · rw [read, if_neg hi] at h
    cases h

/-- However the action fails from `m`, `E` holds of the fault and of the machine that is left. -/
def FailsTo (E : Fault → Machine → Prop) (x : Action α) (m : Machine) : Prop :=
  ∀ f m', x m = .error f m' → E f m'

namespace FailsTo

variable {E : Fault → Machine → Prop}

theorem bind (hx : FailsTo E x m) (hg : ∀ a m₁, x m = .ok a m₁ → FailsTo E (g a) m₁) :
    FailsTo E (x >>= g) m := by
  intro f m' h
  rcases bind_eq_error.1 h with h | ⟨a, m₁, h₁, h⟩
  · exact hx f m' h
  · exact hg a m₁ h₁ f m' h

theorem get_bind {g : Machine → Action β} (h : FailsTo E (g m) m) : FailsTo E (get >>= g) m := h

theorem modifying {u : Machine → Machine} : FailsTo E (modify u : Action Unit) m := by
  intro f m' h
  cases h

theorem modifying_bind {u : Machine → Machine} {g : Unit → Action β} (h : FailsTo E (g ()) (u m)) :
    FailsTo E (modify u >>= g) m := h

theorem clean (hx : Clean x) (h : ∀ f, f.ip = m.ip → f.cause ≠ .divisionByZero → E f m) :
    FailsTo E x m := by
  intro f m' hfails
  obtain ⟨rfl, hip, hcause⟩ := hx hfails
  exact h f hip hcause

theorem looking_bind (hlooks : Looks x) (hx : FailsTo E x m)
    (hg : ∀ a, x m = .ok a m → FailsTo E (g a) m) : FailsTo E (x >>= g) m := by
  refine hx.bind fun a m₁ hok => ?_
  obtain rfl := hlooks.eq_of_ok hok
  exact hg a hok

theorem write_bind {i : Nat} {w : Word} {g : Unit → Action β} (hx : FailsTo E (write i w) m)
    (hg : i < m.capacity → FailsTo E (g ()) { m with stack := m.stack.set i w }) :
    FailsTo E (write i w >>= g) m := by
  refine hx.bind fun _ m₁ hok => ?_
  obtain ⟨hi, rfl⟩ := write_eq_ok.1 hok
  exact hg hi

end FailsTo

/-- What is left of `m` when at most `n` words have been taken off its stack. -/
structure Spilled (n : Nat) (m m' : Machine) : Prop where
  same : m' = { m with sp := m'.sp, stack := m'.stack }
  sp_le : m'.sp ≤ m.sp
  le_sp : m.sp ≤ m'.sp + n
  words : ∀ j < m'.sp, m'.stack.get j = m.stack.get j

/-- A fault at the current instruction of `m` that leaves `m'`. Division by zero has taken two words
off. -/
structure Spills (n : Nat) (m : Machine) (f : Fault) (m' : Machine) : Prop where
  ip : f.ip = m.ip
  spilled : Spilled n m m'
  byZero : f.cause = .divisionByZero → m.sp = m'.sp + 2

namespace Spilled

variable {n : Nat}

theorem refl (m : Machine) : Spilled 0 m m := ⟨rfl, Nat.le_refl _, Nat.le_refl _, fun _ _ => rfl⟩

theorem ip (h : Spilled n m m') : m'.ip = m.ip := by
  rw [h.same]

theorem mono (h : Spilled n m m') {k : Nat} (hk : n ≤ k) : Spilled k m m' :=
  { h with le_sp := Nat.le_trans h.le_sp (Nat.add_le_add_left hk _) }

theorem down (h : Spilled n m m₁) : Spilled (n + 1) m { m₁ with sp := m₁.sp - 1 } where
  same := congrArg (fun k : Machine => { k with sp := m₁.sp - 1 }) h.same
  sp_le := Nat.le_trans (Nat.sub_le _ _) h.sp_le
  le_sp := by
    have hle := h.le_sp
    dsimp only
    omega
  words j hj := h.words j (by dsimp only at hj; omega)

/-- Words above the stack do not count. -/
theorem above (h : Spilled n m m₁) {stack : Stack} (hstack : ∀ j < m.sp, stack.get j = m₁.stack.get j) :
    Spilled n m { m₁ with stack } where
  same := congrArg (fun k : Machine => { k with stack }) h.same
  sp_le := h.sp_le
  le_sp := h.le_sp
  words j hj := (hstack j (Nat.lt_of_lt_of_le hj h.sp_le)).trans (h.words j hj)

theorem set (h : Spilled n m m₁) {i : Nat} (hi : m.sp ≤ i) (w : Word) :
    Spilled n m { m₁ with stack := m₁.stack.set i w } :=
  h.above fun j hj => by rw [Stack.get_set, if_neg (by omega)]

theorem clear (h : Spilled n m m₁) {i : Nat} (hi : m.sp ≤ i) (k : Nat) :
    Spilled n m { m₁ with stack := m₁.stack.clear i k } :=
  h.above fun j hj => by rw [Stack.get_clear, if_neg (by omega)]

theorem clean (h : Spilled n m m₁) (hx : Clean x) : FailsTo (Spills n m) x m₁ :=
  .clean hx fun _ hip hcause => ⟨hip.trans h.ip, h, fun hzero => absurd hzero hcause⟩

theorem push (h : Spilled n m m₁) (w : Word) : FailsTo (Spills n m) (push w) m₁ :=
  .get_bind (.write_bind (h.clean (clean_write _ w)) fun _ => .modifying)

theorem pop (h : Spilled n m m₁) {k : Nat} (hk : n < k) : FailsTo (Spills k m) pop m₁ := by
  intro f m' hfails
  unfold Machine.pop at hfails
  split at hfails
  · exact (h.mono (Nat.le_of_lt hk)).clean (clean_fail (by simp)) f m' hfails
  · exact (h.down.mono hk).clean (clean_read _) f m' hfails

theorem pop_bind {g : Word → Action β} (h : Spilled n m m₁) {k : Nat} (hk : n < k)
    (hg : ∀ w, 0 < m₁.sp → FailsTo (Spills k m) (g w) { m₁ with sp := m₁.sp - 1 }) :
    FailsTo (Spills k m) (Machine.pop >>= g) m₁ := by
  refine (h.pop hk).bind fun w m₂ hok => ?_
  obtain ⟨hsp, rfl⟩ := of_pop hok
  exact hg w hsp

end Spilled

theorem arith_spills (m : Machine) (op : Arith) : FailsTo (Spills 2 m) (arith op) m := by
  have h₀ := Spilled.refl m
  refine h₀.pop_bind (by decide) fun b hb => h₀.down.pop_bind (by decide) fun a ha => ?_
  cases op.apply a b with
  | some r => exact h₀.down.down.push r
  | none =>
    intro f m' hfails
    cases hfails
    refine ⟨rfl, h₀.down.down, fun _ => ?_⟩
    dsimp only at ha ⊢
    omega

/-- A call writes above the stack only, also when there is no room for the parameter. -/
theorem call_spills (m : Machine) (target next : Nat) : FailsTo (Spills 0 m) (call target next) m := by
  have h₀ := Spilled.refl m
  refine .get_bind (.get_bind ?_)
  refine .looking_bind (looks_ensure _ _) (h₀.clean (clean_ensure _ (by simp))) fun _ _ => ?_
  refine .looking_bind (looks_ensureRoom _) (h₀.clean (clean_ensureRoom _)) fun _ _ => ?_
  refine .looking_bind (looks_saved _) (h₀.clean (clean_saved _)) fun next _ => ?_
  refine .get_bind (.looking_bind (looks_saved _) (h₀.clean (clean_saved _)) fun caller _ => ?_)
  refine .write_bind (h₀.clean (clean_write _ _)) fun _ => ?_
  have h₁ := h₀.set (Nat.le_refl m.sp) next
  refine .write_bind (h₁.clean (clean_write _ _)) fun _ => .modifying_bind ?_
  have h₂ := (h₁.set (Nat.le_succ m.sp) caller).clear (Nat.le_add_right m.sp 2) m.frameSize
  refine .looking_bind (looks_read _) (h₂.clean (clean_read _)) fun arg _ => .get_bind ?_
  exact .write_bind (h₂.clean (clean_write _ _)) fun _ => .modifying

/-- What is left by any instruction but a return. -/
theorem execute_spills (m : Machine) {i : Instruction} (hi : i ≠ .ret) (next : Nat) :
    FailsTo (Spills i.spill m) (execute i next) m := by
  have h₀ := Spilled.refl m
  cases i with
  | nop | goto _ | stop => exact .modifying
  | push w => exact (h₀.push w).bind fun _ _ _ => .modifying
  | load slot =>
    refine .get_bind (.looking_bind (looks_read _) (h₀.clean (clean_read _)) fun w _ => ?_)
    exact (h₀.push w).bind fun _ _ _ => .modifying
  | store slot =>
    refine h₀.pop_bind (Nat.lt_succ_self 0) fun w _ => .get_bind ?_
    exact .write_bind (h₀.down.clean (clean_write _ w)) fun _ => .modifying
  | arith op => exact (arith_spills m op).bind fun _ _ _ => .modifying
  | branch test target =>
    refine h₀.pop_bind (Nat.zero_lt_succ 1) fun b _ => ?_
    exact h₀.down.pop_bind (Nat.lt_succ_self 1) fun a _ => .modifying
  | call target => exact call_spills m target next
  | ret => exact absurd rfl hi

/-- The machine without its frame, with the result in the place of the argument. -/
def dropFrame (m : Machine) (fp : Nat) : Machine :=
  { m with sp := m.fp - 2, fp, stack := m.stack.set (m.fp - 3) (m.stack.get (m.sp - 1)) }

theorem restored_eq_error {w : Word} (h : restored w m = .error f m') :
    w.toInt < 0 ∧ f = ⟨m.ip, .illegal (.corruptFrame w)⟩ ∧ m' = m := by
  cases hw : Word.toNat? w with
  | some value =>
    rw [restored, hw] at h
    cases h
  | none =>
    rw [restored, hw] at h
    cases h
    exact ⟨Word.toNat?_eq_none_iff.1 hw, rfl, rfl⟩

/-- A fault in a return: all of the machine is left, or the machine without its frame. If `fp` has moved,
it is the return address that cannot be restored. -/
def Unwinds (m : Machine) (f : Fault) (m' : Machine) : Prop :=
  f.ip = m.ip ∧ (m' = m ∨ 3 ≤ m.fp ∧ ∃ fp, m' = m.dropFrame fp ∧ (fp ≠ m.fp →
    (m.stack.get (m.fp - 2)).toInt < 0 ∧
      f.cause = .illegal (.corruptFrame (m.stack.get (m.fp - 2)))))

theorem ret_unwinds (m : Machine) : FailsTo (Unwinds m) ret m := by
  have hclean : ∀ {α : Type} {x : Action α}, Clean x → FailsTo (Unwinds m) x m :=
    fun hx => .clean hx fun _ hip _ => ⟨hip, .inl rfl⟩
  refine .get_bind (.looking_bind (looks_ensure _ _) (hclean (clean_ensure _ (by simp))) fun _ hfp => ?_)
  refine .get_bind (.looking_bind (looks_ensure _ _) (hclean (clean_ensure _ (by simp))) fun _ _ => ?_)
  refine .get_bind (.looking_bind (looks_read _) (hclean (clean_read _)) fun result hresult => ?_)
  obtain ⟨-, rfl⟩ := of_read hresult
  refine .write_bind (hclean (clean_write _ _)) fun _ => .modifying_bind ?_
  change FailsTo _ _ (m.dropFrame m.fp)
  have hfp := of_ensure hfp
  have hdrops : ∀ f : Fault, f.ip = m.ip → Unwinds m f (m.dropFrame m.fp) :=
    fun f hip => ⟨hip, .inr ⟨hfp, _, rfl, fun hne => absurd rfl hne⟩⟩
  refine .looking_bind (looks_read _) (.clean (clean_read _) fun f hip _ => hdrops f hip) fun w hw => ?_
  obtain ⟨hroom, -⟩ := of_read hw
  refine .looking_bind (looks_restored w) (fun f m' hfails => ?_) fun caller _ => .modifying_bind ?_
  · obtain ⟨-, rfl, rfl⟩ := restored_eq_error hfails
    exact hdrops _ rfl
  change FailsTo _ _ (m.dropFrame caller)
  have hword : (m.dropFrame caller).stack.get (m.fp - 2) = m.stack.get (m.fp - 2) :=
    (Stack.get_set _ _ _ _).trans (if_neg (by omega))
  -- the word above it could be read, and so can this one
  have hlt : m.fp - 2 < (m.dropFrame caller).capacity := Nat.lt_of_le_of_lt (by omega) hroom
  have hread := read_eq hlt
  rw [hword] at hread
  intro f m' hfails
  rw [bind_of_ok hread] at hfails
  refine FailsTo.looking_bind (looks_restored _) (fun f m' hfails => ?_) (fun _ _ => .modifying) f m' hfails
  obtain ⟨hneg, rfl, rfl⟩ := restored_eq_error hfails
  exact ⟨rfl, .inr ⟨hfp, _, rfl, fun _ => ⟨hneg, rfl⟩⟩⟩

/-- Nothing is fetched: the fault is at `ip`. -/
theorem ip_of_fetch (h : m.fetch = .error f) : f.ip = m.ip := by
  unfold fetch at h
  split at h
  · cases h
    rfl
  · obtain ⟨-, rfl⟩ | ⟨opcode, -, ⟨-, rfl⟩ | ⟨-, -, rfl⟩ | ⟨w, -, -, -, rfl⟩⟩ :=
      Instruction.decode_eq_error_iff.1 h <;> rfl

theorem Spilled.live_eq {n : Nat} (h : Spilled n m m') :
    ∃ lost, m.live = m'.live ++ lost ∧ lost.length = m.sp - m'.sp := by
  have hlive : m'.live = m.stack.take m'.sp :=
    List.map_congr_left fun j hj => h.words j (List.mem_range.1 hj)
  refine ⟨(List.range (m.sp - m'.sp)).map fun k => m.stack.get (m'.sp + k), ?_, by simp⟩
  rw [hlive, ← Stack.take_add, Nat.add_sub_cancel' h.sp_le]
  rfl

/-- No step that fails touches anything but the stack and its registers. -/
theorem step_keeps (h : step m = .error f m') :
    f.ip = m.ip ∧ ∃ sp fp stack, m' = { m with sp, fp, stack } := by
  cases hfetch : m.fetch with
  | error g =>
    rw [step, hfetch] at h
    cases h
    exact ⟨ip_of_fetch hfetch, _, _, _, rfl⟩
  | ok i =>
    rw [step_of_fetch hfetch] at h
    by_cases hi : i = .ret
    · subst hi
      obtain ⟨hip, rfl | ⟨-, fp, rfl, -⟩⟩ := ret_unwinds m f m' h
      · exact ⟨hip, _, _, _, rfl⟩
      · exact ⟨hip, _, _, _, rfl⟩
    · obtain ⟨hip, hspilled, -⟩ := execute_spills m hi _ f m' h
      exact ⟨hip, _, _, _, hspilled.same⟩

end Machine

open Machine

/-- What a step leaves behind when it fails. The fault is at `ip`, which stays, and so does all that a
machine is made with. Where nothing was fetched, all stays. Any instruction but a return keeps `fp` and
loses at most the operands that it takes off. A return changes nothing or has dropped its frame; then the
result is in the place of the argument, nothing below has changed, and `fp` has changed only if the
saved return address is negative. -/
theorem failed_step_leaves {m m' : Machine} {f : Fault} (h : step m = .error f m') :
    (f.ip = m.ip ∧ m'.ip = m.ip ∧ m'.halted = m.halted ∧ m'.code = m.code ∧
      m'.frameSize = m.frameSize ∧ m'.paramSlot = m.paramSlot ∧ m'.capacity = m.capacity) ∧
    (∀ g, m.fetch = .error g → m' = m) ∧
    (∀ i, m.fetch = .ok i → i ≠ .ret → m'.fp = m.fp ∧ ∃ lost, m.live = m'.live ++ lost ∧
      lost.length ≤ i.spill ∧ (f.cause = .divisionByZero → lost.length = 2)) ∧
    (m.fetch = .ok .ret → m' = m ∨ 3 ≤ m.fp ∧ m'.sp = m.fp - 2 ∧
      (∀ j < m.fp - 3, m'.stack.get j = m.stack.get j) ∧
      m'.stack.get (m.fp - 3) = m.stack.get (m.sp - 1) ∧
      (m'.fp ≠ m.fp → (m.stack.get (m.fp - 2)).toInt < 0 ∧
        f.cause = .illegal (.corruptFrame (m.stack.get (m.fp - 2))))) := by
  obtain ⟨hip, sp, fp, stack, hsame⟩ := step_keeps h
  refine ⟨⟨hip, by rw [hsame]; exact ⟨rfl, rfl, rfl, rfl, rfl, rfl⟩⟩, fun g hg => ?_, fun i hi hne => ?_,
    fun hret => ?_⟩
  · rw [step, hg] at h
    cases h
    rfl
  · rw [step_of_fetch hi] at h
    obtain ⟨-, hspilled, hzero⟩ := execute_spills m hne _ f m' h
    obtain ⟨lost, hlive, hlength⟩ := hspilled.live_eq
    have hle := hspilled.le_sp
    refine ⟨by rw [hspilled.same], lost, hlive, by omega, fun hcause => ?_⟩
    have htwo := hzero hcause
    omega
  · rw [step_of_fetch hret] at h
    obtain ⟨-, hm | ⟨hthree, fp, rfl, hfp⟩⟩ := ret_unwinds m f m' h
    · exact .inl hm
    · refine .inr ⟨hthree, rfl, fun j hj => ?_, ?_, hfp⟩
      · exact (Stack.get_set _ _ _ _).trans (if_neg (Nat.ne_of_lt hj))
      · exact (Stack.get_set _ _ _ _).trans (if_pos rfl)

/-- Here the code has overwritten the saved registers, and the return fails at the second of them. -/
theorem failed_step_leaves_return : ∃ m m',
    Operation.after [.reset 5, .step, .step, .step, .step, .step, .step]
      ⟨#[13, 2, 8, 4, 8, 6, 1, 0, 1, -1, 1, 2147483647, 14], 1, 0, 4, 0, 0, 0, false, .empty⟩ = m ∧
    step m = .error ⟨12, .illegal (.corruptFrame (-1))⟩ m' ∧ m.ip = 12 ∧ m'.ip = 12 ∧
    m.fp = 3 ∧ m'.fp = 2147483647 ∧ m'.sp = 1 ∧ m'.stack.get 0 = 2147483647 := by
  have hm : Operation.after [.reset 5, .step, .step, .step, .step, .step, .step]
      ⟨#[13, 2, 8, 4, 8, 6, 1, 0, 1, -1, 1, 2147483647, 14], 1, 0, 4, 0, 0, 0, false, .empty⟩ =
      ⟨#[13, 2, 8, 4, 8, 6, 1, 0, 1, -1, 1, 2147483647, 14], 1, 0, 4, 12, 3, 3, false,
        ⟨#[0, -1, 2147483647, 5]⟩⟩ := by
    decide +kernel
  have hstep : step ⟨#[13, 2, 8, 4, 8, 6, 1, 0, 1, -1, 1, 2147483647, 14], 1, 0, 4, 12, 3, 3, false,
        ⟨#[0, -1, 2147483647, 5]⟩⟩ = .error ⟨12, .illegal (.corruptFrame (-1))⟩
      ⟨#[13, 2, 8, 4, 8, 6, 1, 0, 1, -1, 1, 2147483647, 14], 1, 0, 4, 12, 1, 2147483647, false,
        ⟨#[2147483647, -1, 2147483647, 5]⟩⟩ := rfl
  obtain ⟨⟨-, hip, -⟩, -, -, hret⟩ := failed_step_leaves hstep
  rcases hret rfl with heq | ⟨-, hsp, -, hresult, -⟩
  · exact absurd (congrArg Machine.fp heq) (by decide)
  · exact ⟨_, _, hm, hstep, rfl, hip, rfl, rfl, hsp, hresult⟩

end Solo
