import Solo.Machine.Run
import Solo.Proofs.Actions
import Solo.Proofs.Encoding

/-! What each instruction does to a machine that has the operands for it, as one equation: the machine
that it leaves, or the fault. -/

namespace Solo

namespace Stack

/-- The stack after a call from a stack of `sp` words: return address, caller's frame, and the
variables, of which only the parameter is not zero. -/
def enter (s : Stack) (sp : Nat) (next caller : Word) (frameSize param : Nat) : Stack :=
  (((s.set sp next).set (sp + 1) caller).clear (sp + 2) frameSize).set (sp + 2 + param)
    (s.get (sp - 1))

variable (s : Stack) {sp : Nat} (next caller : Word) {frameSize param : Nat}

theorem get_enter_below {j : Nat} (hj : j < sp) :
    (s.enter sp next caller frameSize param).get j = s.get j := by
  rw [enter, get_set, get_clear, get_set, get_set, if_neg (by omega), if_neg (by omega),
    if_neg (by omega), if_neg (by omega)]

theorem get_enter_next : (s.enter sp next caller frameSize param).get sp = next := by
  rw [enter, get_set, get_clear, get_set, get_set, if_neg (by omega), if_neg (by omega),
    if_neg (by omega), if_pos rfl]

theorem get_enter_caller : (s.enter sp next caller frameSize param).get (sp + 1) = caller := by
  rw [enter, get_set, get_clear, get_set, if_neg (by omega), if_neg (by omega), if_pos rfl]

theorem get_enter_slot {k : Nat} (hk : k < frameSize) :
    (s.enter sp next caller frameSize param).get (sp + 2 + k) =
      if k = param then s.get (sp - 1) else 0 := by
  rw [enter, get_set, get_clear]
  by_cases h : k = param
  · rw [if_pos (by rw [h]), if_pos h]
  · rw [if_neg (by omega), if_pos (by omega), if_neg h]

end Stack

/-- The parts of a machine that steps leave alone are those of `b`, and the stack is so small that
saved registers fit into words. -/
structure Loaded (b : Bytecode) (code : Array Word) (frameSize paramSlot capacity : Nat) : Prop where
  code : code = b.words.toArray
  frameSize : frameSize = b.frameSize
  paramSlot : paramSlot = b.paramSlot
  capacity : capacity ≤ Word.sizeLimit

abbrev Machine.Holds (m : Machine) (b : Bytecode) : Prop :=
  Loaded b m.code m.frameSize m.paramSlot m.capacity

namespace Machine

variable {m : Machine} {next : Nat}

theorem read_eq {i : Nat} (h : i < m.capacity) : read i m = .ok (m.stack.get i) m := if_pos h

theorem write_eq {i : Nat} (h : i < m.capacity) (w : Word) :
    write i w m = .ok () { m with stack := m.stack.set i w } := if_pos h

theorem ensure_eq {p : Prop} [Decidable p] (h : p) (cause : Fault.Cause) :
    ensure p cause m = .ok () m := by
  rw [ensure, if_pos h]
  rfl

theorem ensureRoom_eq {n : Nat} (h : n ≤ m.capacity) : ensureRoom n m = .ok () m := if_pos h

theorem saved_eq {value : Nat} (h : value < Word.sizeLimit) :
    saved value m = .ok (.ofSize value) m := by
  rw [saved, Word.ofNat?_eq h]
  rfl

theorem restored_eq {value : Nat} (h : value < Word.sizeLimit) :
    restored (.ofSize value) m = .ok value m := by
  rw [restored, Word.toNat?_ofSize h]
  rfl

theorem push_eq (w : Word) : push w m =
    if m.sp < m.capacity then .ok () { m with stack := m.stack.set m.sp w, sp := m.sp + 1 }
    else .error ⟨m.ip, .stackOverflow m.capacity⟩ m := by
  unfold push
  rw [get_bind]
  split
  · next h => exact bind_of_ok (write_eq h w)
  · next h => exact bind_of_error (if_neg h)

theorem pop_eq (h : 0 < m.sp) (hroom : m.sp ≤ m.capacity) :
    pop m = .ok (m.stack.get (m.sp - 1)) { m with sp := m.sp - 1 } := by
  have hlt : m.sp - 1 < m.capacity := by omega
  rw [pop, if_neg (by omega)]
  exact if_pos hlt

/-- A machine that is made ready for a run keeps nothing of what it did before. -/
theorem reset_eq (arg : Word) : reset arg m =
    if 0 < m.capacity then
      .ok () { m with
        ip := 0, sp := 1, fp := 0, halted := false, stack := Stack.empty.set 0 arg }
    else .error ⟨0, .stackOverflow m.capacity⟩
      { m with ip := 0, sp := 0, fp := 0, halted := false, stack := .empty } :=
  push_eq (m := { m with ip := 0, sp := 0, fp := 0, halted := false, stack := .empty }) arg

theorem execute_push (w : Word) : execute (.push w) next m =
    if m.sp < m.capacity then
      .ok () { m with stack := m.stack.set m.sp w, sp := m.sp + 1, ip := next }
    else .error ⟨m.ip, .stackOverflow m.capacity⟩ m := by
  have hpush := push_eq (m := m) w
  split
  · next h =>
    rw [if_pos h] at hpush
    exact bind_of_ok hpush
  · next h =>
    rw [if_neg h] at hpush
    exact bind_of_error hpush

theorem execute_load {slot : Nat} (hslot : m.fp + slot < m.capacity) :
    execute (.load slot) next m = execute (.push (m.stack.get (m.fp + slot))) next m :=
  bind_of_ok (read_eq hslot)

theorem execute_store {slot : Nat} (hsp : 0 < m.sp) (hroom : m.sp ≤ m.capacity)
    (hslot : m.fp + slot < m.capacity) : execute (.store slot) next m =
    .ok () { m with
      stack := m.stack.set (m.fp + slot) (m.stack.get (m.sp - 1)), sp := m.sp - 1, ip := next } := by
  refine (bind_of_ok (pop_eq hsp hroom)).trans ?_
  exact bind_of_ok (write_eq (m := { m with sp := m.sp - 1 }) hslot _)

theorem pop_twice {α : Type} {f : Word → Word → Action α} (hsp : 2 ≤ m.sp)
    (hroom : m.sp ≤ m.capacity) : (do let b ← pop; let a ← pop; f a b) m =
      f (m.stack.get (m.sp - 2)) (m.stack.get (m.sp - 1)) { m with sp := m.sp - 2 } := by
  refine (bind_of_ok (pop_eq (by omega) hroom)).trans ?_
  have hpop := pop_eq (m := { m with sp := m.sp - 1 })
    (show 0 < m.sp - 1 by omega) (show m.sp - 1 ≤ m.capacity by omega)
  exact bind_of_ok hpop

theorem execute_arith {op : Arith} (hsp : 2 ≤ m.sp) (hroom : m.sp ≤ m.capacity) :
    execute (.arith op) next m =
      match op.apply (m.stack.get (m.sp - 2)) (m.stack.get (m.sp - 1)) with
      | some r =>
        .ok () { m with stack := m.stack.set (m.sp - 2) r, sp := m.sp - 1, ip := next }
      | none => .error ⟨m.ip, .divisionByZero⟩ { m with sp := m.sp - 2 } := by
  have harith : arith op m =
      (match op.apply (m.stack.get (m.sp - 2)) (m.stack.get (m.sp - 1)) with
        | some r => push r
        | none => fail .divisionByZero) { m with sp := m.sp - 2 } := pop_twice hsp hroom
  cases hr : op.apply (m.stack.get (m.sp - 2)) (m.stack.get (m.sp - 1)) with
  | some r =>
    rw [hr] at harith
    have hpush := push_eq (m := { m with sp := m.sp - 2 }) r
    rw [if_pos (show m.sp - 2 < m.capacity by omega)] at hpush
    have hsucc : m.sp - 2 + 1 = m.sp - 1 := by omega
    rw [hsucc] at hpush
    exact bind_of_ok (harith.trans hpush)
  | none =>
    rw [hr] at harith
    exact bind_of_error harith

theorem execute_branch {test : Comparison} {target : Nat} (hsp : 2 ≤ m.sp)
    (hroom : m.sp ≤ m.capacity) : execute (.branch test target) next m =
      .ok () { m with
        sp := m.sp - 2
        ip := if test.holds (m.stack.get (m.sp - 2)) (m.stack.get (m.sp - 1)) then target
          else next } :=
  pop_twice hsp hroom

/-- A call with an argument on the stack fails only for want of room. -/
theorem execute_call {target : Nat} (hsp : 0 < m.sp) (hcapacity : m.capacity ≤ Word.sizeLimit)
    (hnext : next < Word.sizeLimit) (hfp : m.fp ≤ m.sp) (hparam : m.paramSlot < m.frameSize) :
    execute (.call target) next m =
      if m.sp + 2 + m.frameSize ≤ m.capacity then
        .ok () { m with
          stack := m.stack.enter m.sp (.ofSize next) (.ofSize m.fp) m.frameSize m.paramSlot
          ip := target, sp := m.sp + 2 + m.frameSize, fp := m.sp + 2 }
      else .error ⟨m.ip, .stackOverflow m.capacity⟩ m := by
  have hargument : (((m.stack.set m.sp (.ofSize next)).set (m.sp + 1) (.ofSize m.fp)).clear
      (m.sp + 2) m.frameSize).get (m.sp - 1) = m.stack.get (m.sp - 1) := by
    rw [Stack.get_clear, Stack.get_set, Stack.get_set, if_neg (by omega), if_neg (by omega),
      if_neg (by omega)]
  change call target next m = _
  refine (bind_of_ok (ensure_eq (Nat.ne_of_gt hsp) _)).trans ?_
  split
  · next h =>
    refine (bind_of_ok (ensureRoom_eq h)).trans ?_
    refine (bind_of_ok (saved_eq hnext)).trans ?_
    refine (bind_of_ok (saved_eq (show m.fp < Word.sizeLimit by omega))).trans ?_
    refine (bind_of_ok (write_eq (by omega) _)).trans ?_
    refine (bind_of_ok (write_eq (by dsimp only; omega) _)).trans ?_
    refine (bind_of_ok (read_eq (by dsimp only; omega))).trans ?_
    refine (bind_of_ok (write_eq (by dsimp only; omega) _)).trans ?_
    rw [Stack.enter, ← hargument]
    rfl
  · next h => exact bind_of_error (if_neg h)

/-- A return finds in its frame where to go. -/
theorem execute_ret {addr caller : Nat} (hfp : 3 ≤ m.fp) (hsp : m.fp ≤ m.sp)
    (hroom : m.sp ≤ m.capacity) (haddr : addr < Word.sizeLimit) (hcaller : caller < Word.sizeLimit)
    (hsaved : m.stack.get (m.fp - 2) = .ofSize addr)
    (hsaved' : m.stack.get (m.fp - 1) = .ofSize caller) :
    execute .ret next m = .ok () { m with
      stack := m.stack.set (m.fp - 3) (m.stack.get (m.sp - 1)), sp := m.fp - 2
      fp := caller, ip := addr } := by
  change ret m = _
  refine (bind_of_ok (ensure_eq hfp _)).trans ?_
  refine (bind_of_ok (ensure_eq (show m.sp ≠ 0 by omega) _)).trans ?_
  refine (bind_of_ok (read_eq (by omega))).trans ?_
  refine (bind_of_ok (write_eq (by omega) _)).trans ?_
  refine (bind_of_ok (read_eq (by dsimp only; omega))).trans ?_
  rw [Stack.get_set, if_neg (by omega), hsaved']
  refine (bind_of_ok (restored_eq hcaller)).trans ?_
  refine (bind_of_ok (read_eq (by dsimp only; omega))).trans ?_
  rw [Stack.get_set, if_neg (by omega), hsaved]
  exact bind_of_ok (restored_eq haddr)

theorem step_of_fetch {m : Machine} {i : Instruction} (h : m.fetch = .ok i) :
    step m = execute i (m.ip + i.width) m := by
  rw [step, h]

end Machine

end Solo
