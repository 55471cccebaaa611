import Solo.Proofs.Decoding
import Solo.Proofs.Sizes
import Solo.Proofs.StackRoom
import Solo.Proofs.Stepping

/-! The registers stay in bounds, whatever the code is and whatever is done to the machine, also when it
fails halfway through an instruction. A return takes its registers from words that the code may have
overwritten, so `fp` and `ip` may be any size that a word can be; `sp` never goes beyond the words that
the stack has. It follows that none of the sums and differences of the machine leaves the 64 bits of a
size. -/

namespace Solo

namespace Machine

/-- `m` has the code and the sizes of `m₀`, and its registers are in the bounds that go with them. -/
structure Within (m₀ m : Machine) : Prop where
  code : m.code = m₀.code
  frameSize : m.frameSize = m₀.frameSize
  paramSlot : m.paramSlot = m₀.paramSlot
  capacity : m.capacity = m₀.capacity
  sp : m.sp ≤ m.stack.size
  size : m.stack.size ≤ m₀.capacity
  fp : m.fp ≤ max m₀.capacity (Word.sizeLimit - 1)
  ip : m.ip ≤ max m₀.code.size (Word.sizeLimit - 1)

/-- Stack, frames and code are so small that sizes of 64 bits are enough for the machine. -/
structure Fits (m : Machine) : Prop where
  stack : m.capacity + m.frameSize + m.paramSlot + 4 * Word.sizeLimit < Size.limit
  code : m.code.size < Size.limit

/-- From `m` the action leaves a machine in bounds, however it ends, and if all sizes fit, checking the
sums and differences makes no difference. -/
structure Safe {α : Type} (m₀ : Machine) (x' : Sized α) (x : Action α) (m : Machine) : Prop where
  within : Within m₀ (left (x m))
  agrees : Fits m₀ → x' m = Sized.of x m

/-- An action that tests something or looks something up, and changes nothing. -/
def Looks {α : Type} (x : Action α) : Prop := ∀ m, left (x m) = m

variable {α β : Type} {m₀ m : Machine} {x' : Sized α} {x : Action α} {f' : α → Sized β}
  {f : α → Action β}

theorem Looks.eq_of_ok (hx : Looks x) {a : α} {m₁ : Machine} (h : x m = .ok a m₁) : m₁ = m := by
  have hsame := hx m
  rw [h] at hsame
  exact hsame

theorem looks_read (i : Nat) : Looks (read i) := by
  intro m
  unfold read
  split <;> rfl

theorem looks_ensure (p : Prop) [Decidable p] (cause : Fault.Cause) : Looks (ensure p cause) := by
  intro m
  unfold ensure
  split <;> rfl

theorem looks_ensureRoom (n : Nat) : Looks (ensureRoom n) := by
  intro m
  unfold ensureRoom
  split <;> rfl

theorem looks_saved (value : Nat) : Looks (saved value) := by
  intro m
  unfold saved
  cases Word.ofNat? value <;> rfl

theorem looks_restored (w : Word) : Looks (restored w) := by
  intro m
  unfold restored
  cases Word.toNat? w <;> rfl

theorem looks_fetching : Looks fetching := by
  intro m
  unfold fetching
  split <;> rfl

theorem of_ensure {p : Prop} [Decidable p] {cause : Fault.Cause} {m₁ : Machine}
    (h : ensure p cause m = .ok () m₁) : p := by
  by_cases hp : p
  · exact hp
  · rw [ensure, if_neg hp] at h
    cases h

theorem of_ensureRoom {n : Nat} {m₁ : Machine} (h : ensureRoom n m = .ok () m₁) : n ≤ m.capacity := by
  by_cases hroom : n ≤ m.capacity
  · exact hroom
  · rw [ensureRoom, if_neg hroom] at h
    cases h

theorem lt_of_restored {w : Word} {value : Nat} {m₁ : Machine} (h : restored w m = .ok value m₁) :
    value < Word.sizeLimit := by
  cases hw : Word.toNat? w with
  | some n =>
    rw [restored, hw] at h
    cases h
    exact (Word.toNat?_eq_some_iff.1 hw).1
  | none =>
    rw [restored, hw] at h
    cases h

/-- What is fetched has small operands and stands in the code with all its words. -/
theorem of_fetching {i : Instruction} {m₁ : Machine} (h : fetching m = .ok i m₁) :
    i.Encodable ∧ m.ip + i.width ≤ m.code.size := by
  have hfetch : m.fetch = .ok i := by
    unfold fetching at h
    split at h <;> simp_all
  unfold fetch at hfetch
  split at hfetch
  · cases hfetch
  · obtain ⟨hi, hprefix⟩ := Instruction.decode_eq_ok_iff.1 hfetch
    have hlength := hprefix.length_le
    rw [Instruction.length_encode, List.length_drop, Array.length_toList] at hlength
    have hpos := i.width_pos
    exact ⟨hi, by omega⟩

/-- A step as a fetch and what follows it. -/
theorem step_bind (m : Machine) : step m = (do
    let i ← fetching
    execute i ((← get).ip + i.width)) m := by
  unfold step
  cases hfetch : m.fetch with
  | ok i =>
    have hok : fetching m = .ok i m := by rw [fetching, hfetch]
    rw [bind_of_ok hok]
    rfl
  | error e =>
    have herror : fetching m = .error e m := by rw [fetching, hfetch]
    rw [bind_of_error herror]

/-- Taking a word off as a test and what follows it. -/
theorem pop_bind (m : Machine) : pop m = (do
    ensure (m.sp ≠ 0) .stackUnderflow
    modify fun m : Machine => { m with sp := m.sp - 1 }
    read (m.sp - 1)) m := by
  unfold pop
  split
  · next hsp =>
    rw [ensure, if_neg (not_not_intro hsp)]
    rfl
  · next hsp =>
    rw [bind_of_ok (ensure_eq hsp _)]
    rfl

theorem write_eq_ok {i : Nat} {w : Word} {m₁ : Machine} :
    write i w m = .ok () m₁ ↔ i < m.capacity ∧ { m with stack := m.stack.set i w } = m₁ := by
  by_cases h : i < m.capacity
  · simp [write_eq h, h]
  · simp [write, overflow, fail, h]

theorem Within.set (h : Within m₀ m) {i : Nat} (hi : i < m.capacity) (w : Word) :
    Within m₀ { m with stack := m.stack.set i w } :=
  have hsize := Stack.size_set m.stack i w
  { h with
    sp := by
      have hsp := h.sp
      dsimp only
      omega
    size := by
      have hcapacity := h.capacity
      have hsize₀ := h.size
      dsimp only
      omega }

namespace Safe

theorem within_of_ok (hx : Safe m₀ x' x m) {a : α} {m₁ : Machine} (h : x m = .ok a m₁) :
    Within m₀ m₁ := by
  have hwithin := hx.within
  rw [h] at hwithin
  exact hwithin

theorem bind (hx : Safe m₀ x' x m)
    (hf : ∀ a m₁, x m = .ok a m₁ → Within m₀ m₁ → Safe m₀ (f' a) (f a) m₁) :
    Safe m₀ (x' >>= f') (x >>= f) m := by
  cases h : x m with
  | ok a m₁ =>
    have hrest := hf a m₁ h (hx.within_of_ok h)
    refine ⟨?_, fun hfits => ?_⟩
    · rw [bind_of_ok h]
      exact hrest.within
    · have hx' : x' m = .ok a m₁ := by rw [hx.agrees hfits, Sized.of, h]
      rw [bind_of_ok hx', hrest.agrees hfits, Sized.of, Sized.of, bind_of_ok h]
  | error e m₁ =>
    refine ⟨?_, fun hfits => ?_⟩
    · have hwithin := hx.within
      rw [h] at hwithin
      rw [bind_of_error h]
      exact hwithin
    · have hx' : x' m = .error (.fault e) m₁ := by rw [hx.agrees hfits, Sized.of, h]
      rw [bind_of_error hx', Sized.of, bind_of_error h]

theorem of (hx : Within m₀ (left (x m))) : Safe m₀ (Sized.of x) x m := ⟨hx, fun _ => rfl⟩

theorem looking (hx : Looks x) (h : Within m₀ m) : Safe m₀ (Sized.of x) x m :=
  of ((hx m).symm ▸ h)

theorem looking_bind (hx : Looks x) (h : Within m₀ m)
    (hf : ∀ a, x m = .ok a m → Safe m₀ (f' a) (f a) m) :
    Safe m₀ (Sized.of x >>= f') (x >>= f) m := by
  refine (looking hx h).bind fun a m₁ hok _ => ?_
  obtain rfl := hx.eq_of_ok hok
  exact hf a hok

theorem modifying {g' g : Machine → Machine} (hg : g' m = g m) (h : Within m₀ (g m)) :
    Safe m₀ (modify g') (modify g) m :=
  ⟨h, fun _ => congrArg (EStateM.Result.ok ()) hg⟩

theorem modifying_bind {g' g : Machine → Machine} {f' : Unit → Sized β} {f : Unit → Action β}
    (hg : g' m = g m) (h : Within m₀ (g m)) (hf : Safe m₀ (f' ()) (f ()) (g m)) :
    Safe m₀ (modify g' >>= f') (modify g >>= f) m := by
  refine (modifying hg h).bind fun _ m₁ hm₁ _ => ?_
  cases hm₁
  exact hf

theorem congr {y : Action α} (hxy : x m = y m) (h : Safe m₀ x' y m) : Safe m₀ x' x m := by
  refine ⟨hxy ▸ h.within, fun hfits => ?_⟩
  rw [h.agrees hfits, Sized.of, Sized.of, hxy]

theorem get_bind {f' : Machine → Sized β} {f : Machine → Action β} (h : Safe m₀ (f' m) (f m) m) :
    Safe m₀ (get >>= f') (get >>= f) m :=
  ⟨h.within, h.agrees⟩

/-- The machine is looked at only to check a sum or a difference. -/
theorem asking {f' : Machine → Sized α} (h : Safe m₀ (f' m) x m) : Safe m₀ (get >>= f') x m :=
  ⟨h.within, h.agrees⟩

theorem plus_bind {a b : Nat} {f' : Nat → Sized α} (hsum : Fits m₀ → a + b < Size.limit)
    (hx : Safe m₀ (f' (a + b)) x m) : Safe m₀ (Sized.plus a b >>= f') x m where
  within := hx.within
  agrees hfits := by
    rw [← hx.agrees hfits, Sized.plus, if_pos (hsum hfits)]
    rfl

theorem plusIf_bind {c : Prop} [Decidable c] {a b : Nat}
    (hsum : c → Fits m₀ → a + b < Size.limit) (hx : Safe m₀ x' x m) :
    Safe m₀ (Sized.plusIf c a b >>= fun _ => x') x m where
  within := hx.within
  agrees hfits := by
    rw [← hx.agrees hfits, Sized.plusIf]
    split
    · next hc =>
      rw [Sized.plus, if_pos (hsum hc hfits)]
      rfl
    · rfl

theorem minus_bind {a b : Nat} {f' : Nat → Sized α} (hle : b ≤ a)
    (hx : Safe m₀ (f' (a - b)) x m) : Safe m₀ (Sized.minus a b >>= f') x m where
  within := hx.within
  agrees hfits := by
    rw [← hx.agrees hfits, Sized.minus, if_pos hle]
    rfl

theorem write (h : Within m₀ m) (i : Nat) (w : Word) :
    Safe m₀ (Sized.write i w) (Machine.write i w) m := by
  refine asking (plusIf_bind ?_ (of ?_))
  · intro hgrows hfits
    have hcapacity := h.capacity
    have hstack := hfits.stack
    omega
  · unfold Machine.write
    split
    · next hi => exact h.set hi w
    · exact h

theorem write_bind {i : Nat} {w : Word} {f' : Unit → Sized β} {f : Unit → Action β}
    (h : Within m₀ m)
    (hf : i < m.capacity → Within m₀ { m with stack := m.stack.set i w } →
      Safe m₀ (f' ()) (f ()) { m with stack := m.stack.set i w }) :
    Safe m₀ (Sized.write i w >>= f') (Machine.write i w >>= f) m := by
  refine (write h i w).bind fun _ m₁ hm₁ h₁ => ?_
  obtain ⟨hi, rfl⟩ := write_eq_ok.1 hm₁
  exact hf hi h₁

/-- A saved register is as small as a word, whatever the code has put in its place. -/
theorem restoring_bind {i : Nat} {f' : Nat → Sized β} {f : Nat → Action β} (h : Within m₀ m)
    (hf : ∀ value < Word.sizeLimit, Safe m₀ (f' value) (f value) m) :
    Safe m₀ (do f' (← Sized.of (Machine.restored (← Sized.of (Machine.read i)))))
      (do f (← Machine.restored (← Machine.read i))) m :=
  looking_bind (looks_read i) h fun w _ => looking_bind (looks_restored w) h fun value hok =>
    hf value (lt_of_restored hok)

theorem push (h : Within m₀ m) (w : Word) : Safe m₀ (Sized.push w) (Machine.push w) m := by
  refine get_bind (write_bind h fun hroom h₁ => ?_)
  refine asking (plus_bind (fun hfits => ?_) (modifying rfl { h₁ with sp := ?_ }))
  · have hcapacity := h.capacity
    have hstack := hfits.stack
    dsimp only
    omega
  · have hsize := Stack.size_set m.stack m.sp w
    dsimp only
    omega

theorem pop (h : Within m₀ m) : Safe m₀ Sized.pop Machine.pop m := by
  refine congr (pop_bind m) (asking (looking_bind (looks_ensure _ _) h fun _ hok => asking ?_))
  refine minus_bind (Nat.pos_of_ne_zero (of_ensure hok)) ?_
  have hdown : Within m₀ { m with sp := m.sp - 1 } :=
    { h with sp := Nat.le_trans (Nat.sub_le _ _) h.sp }
  exact modifying_bind rfl hdown (looking (looks_read _) hdown)

theorem jump {addr : Nat} (h : Within m₀ m) (haddr : addr ≤ max m₀.code.size (Word.sizeLimit - 1)) :
    Safe m₀ (Sized.of (Machine.jump addr)) (Machine.jump addr) m :=
  of { h with ip := haddr }

theorem clear (h : Within m₀ m) {i n : Nat} (hroom : i + n ≤ m.capacity) :
    Safe m₀ (Sized.clear i n) (modify fun m => { m with stack := m.stack.clear i n }) m := by
  induction n generalizing i m with
  | zero => exact ⟨h, fun _ => rfl⟩
  | succ n ih =>
    have hi : i < m.capacity := by omega
    have hfirst : (modify fun m : Machine => { m with stack := m.stack.clear i (n + 1) } :
        Action Unit) m = (do
          Machine.write i 0
          modify fun m : Machine => { m with stack := m.stack.clear (i + 1) n }) m := by
      rw [bind_of_ok (write_eq hi 0)]
      rfl
    refine plus_bind (fun hfits => ?_) (congr hfirst (write_bind h fun _ h₁ => ih h₁ ?_))
    · have hcapacity := h.capacity
      have hstack := hfits.stack
      omega
    · dsimp only
      omega

theorem arith (h : Within m₀ m) (op : Arith) :
    Safe m₀ (Sized.arith op) (Machine.arith op) m := by
  refine (pop h).bind fun b m₁ _ h₁ => (pop h₁).bind fun a m₂ _ h₂ => ?_
  cases op.apply a b with
  | some r => exact push h₂ r
  | none => exact of h₂

theorem branch (h : Within m₀ m) (test : Comparison) {target next : Nat}
    (htarget : target < Word.sizeLimit) (hnext : next ≤ m₀.code.size) :
    Safe m₀ (Sized.branch test target next) (Machine.branch test target next) m := by
  refine (pop h).bind fun b m₁ _ h₁ => (pop h₁).bind fun a m₂ _ h₂ => jump h₂ ?_
  split <;> omega

theorem call (h : Within m₀ m) {target next : Nat} (htarget : target < Word.sizeLimit) :
    Safe m₀ (Sized.call target next) (Machine.call target next) m := by
  have hcapacity := h.capacity
  have hsum : Fits m₀ → m.sp + 2 + m.frameSize + m.paramSlot < Size.limit := by
    intro hfits
    have hstack := hfits.stack
    rw [← h.capacity, ← h.frameSize, ← h.paramSlot, Word.sizeLimit] at hstack
    have hsp := h.sp
    have hsize := h.size
    omega
  refine get_bind (get_bind (looking_bind (looks_ensure _ _) h fun _ _ => ?_))
  refine plus_bind (fun hfits => by have := hsum hfits; omega) ?_
  refine plus_bind (fun hfits => by have := hsum hfits; omega) ?_
  refine looking_bind (looks_ensureRoom _) h fun _ hok => ?_
  have hroom := of_ensureRoom hok
  refine looking_bind (looks_saved _) h fun next _ => ?_
  refine get_bind (looking_bind (looks_saved _) h fun caller _ => ?_)
  refine write_bind h fun _ h₁ => plus_bind (fun hfits => by have := hsum hfits; omega) ?_
  refine write_bind h₁ fun _ h₂ => (clear h₂ hroom).bind fun _ m₃ hm₃ h₃ => ?_
  cases hm₃
  refine looking_bind (looks_read _) h₃ fun arg _ => ?_
  refine get_bind (plus_bind (fun hfits => by have := hsum hfits; dsimp only; omega) ?_)
  refine write_bind h₃ fun _ h₄ => modifying rfl { h₄ with sp := ?_, fp := ?_, ip := ?_ }
  · -- clearing the frame has made the stack as large as the new `sp`; an empty frame is covered by the
    -- two saved words
    dsimp only
    rw [Stack.size_set, Stack.size_clear, Stack.size_set]
    split <;> omega
  · dsimp only
    omega
  · dsimp only
    omega

theorem ret (h : Within m₀ m) : Safe m₀ Sized.ret Machine.ret m := by
  have hcapacity := h.capacity
  refine get_bind (looking_bind (looks_ensure _ _) h fun _ hok => ?_)
  have hfp := of_ensure hok
  refine get_bind (looking_bind (looks_ensure _ _) h fun _ _ => ?_)
  refine get_bind (looking_bind (looks_read _) h fun result _ => ?_)
  refine write_bind h fun hroom h₁ => minus_bind (by omega) ?_
  -- the stack has the word at `fp - 3` now, so it has as many words as the new `sp` says
  have h₂ : Within m₀ { m with stack := m.stack.set (m.fp - 3) result, sp := m.fp - 2 } := by
    have hsize := Stack.size_set m.stack (m.fp - 3) result
    exact { h₁ with sp := by dsimp only; omega }
  have hsucc : m.fp - 2 + 1 = m.fp - 1 := by omega
  refine modifying_bind rfl h₂ (plus_bind (fun hfits => ?_) ?_)
  · have hstack := hfits.stack
    rw [Word.sizeLimit] at hstack
    omega
  rw [hsucc]
  refine restoring_bind h₂ fun caller hcaller => ?_
  have h₃ : Within m₀
      { m with stack := m.stack.set (m.fp - 3) result, sp := m.fp - 2, fp := caller } :=
    { h₂ with fp := by dsimp only; omega }
  exact modifying_bind rfl h₃ (restoring_bind h₃ fun next hnext => jump h₃ (by omega))

theorem execute (h : Within m₀ m) {i : Instruction} (hi : i.Encodable) {next : Nat}
    (hnext : next ≤ m₀.code.size) : Safe m₀ (Sized.execute i next) (Machine.execute i next) m := by
  have hjump : ∀ {m₁}, Within m₀ m₁ →
      Safe m₀ (Sized.of (Machine.jump next)) (Machine.jump next) m₁ := by
    intro m₁ h₁
    exact jump h₁ (by omega)
  -- `fp` and the slot are words or at most the capacity, so two words of room are enough for their sum
  have hsum : ∀ {m₁ slot}, Within m₀ m₁ → i.slot? = some slot → Fits m₀ →
      m₁.fp + slot < Size.limit := by
    intro m₁ slot h₁ hslot hfits
    have hlt := hi.1 slot hslot
    have hfp := h₁.fp
    have hstack := hfits.stack
    omega
  cases i with
  | nop => exact hjump h
  | push w => exact (push h w).bind fun _ m₁ _ h₁ => hjump h₁
  | load slot =>
    refine get_bind (plus_bind (hsum h rfl) (looking_bind (looks_read _) h fun w _ => ?_))
    exact (push h w).bind fun _ m₁ _ h₁ => hjump h₁
  | store slot =>
    refine (pop h).bind fun w m₁ _ h₁ => get_bind (plus_bind (hsum h₁ rfl) ?_)
    exact (write h₁ _ w).bind fun _ m₂ _ h₂ => hjump h₂
  | arith op => exact (arith h op).bind fun _ m₁ _ h₁ => hjump h₁
  | branch test target => exact branch h test (hi.2 target rfl) hnext
  | goto target =>
    have hlt := hi.2 target rfl
    exact jump h (by omega)
  | call target => exact call h (hi.2 target rfl)
  | ret => exact ret h
  | stop => exact modifying rfl { h with }

theorem step (h : Within m₀ m) : Safe m₀ Sized.step Machine.step m := by
  have hcode := h.code
  refine congr (step_bind m) (asking (plusIf_bind (fun hlt hfits => ?_) ?_))
  · have hsize := hfits.code
    rw [← hcode] at hsize
    omega
  refine looking_bind looks_fetching h fun i hok => ?_
  obtain ⟨hi, hend⟩ := of_fetching hok
  rw [hcode] at hend
  refine get_bind (plus_bind (fun hfits => ?_) (execute h hi hend))
  exact Nat.lt_of_le_of_lt hend hfits.code

theorem reset (h : Within m₀ m) (arg : Word) : Safe m₀ (Sized.reset arg) (Machine.reset arg) m := by
  have hfresh : Within m₀
      { m with ip := 0, sp := 0, fp := 0, halted := false, stack := .empty } :=
    { h with
      sp := Nat.zero_le _
      size := Nat.zero_le _
      fp := Nat.zero_le _
      ip := Nat.zero_le _ }
  exact modifying_bind rfl hfresh (push hfresh arg)

theorem runFor (h : Within m₀ m) (bound : Nat) :
    Safe m₀ (Sized.runFor bound) (Machine.runFor bound) m := by
  induction bound generalizing m with
  | zero => exact ⟨h, fun _ => rfl⟩
  | succ bound ih =>
    have hrest := (step h).bind fun _ m₁ _ h₁ => ih h₁
    cases hhalted : m.halted with
    | true =>
      have hdone : Machine.runFor (bound + 1) m = .ok true m := by rw [runFor_bind, if_pos hhalted]
      have hdone' : Sized.runFor (bound + 1) m = .ok true m := if_pos hhalted
      refine ⟨by rw [hdone]; exact h, fun _ => ?_⟩
      rw [Sized.of, hdone, hdone']
    | false =>
      have hgoes : ¬ m.halted = true := by rw [hhalted]; exact Bool.false_ne_true
      have hmore : Sized.runFor (bound + 1) m = (Sized.step >>= fun _ => Sized.runFor bound) m :=
        if_neg hgoes
      refine congr (by rw [runFor_bind, if_neg hgoes]) ⟨hrest.within, fun hfits => ?_⟩
      rw [hmore, hrest.agrees hfits]

theorem run (h : Within m₀ m) (bound : Nat) (arg : Word) :
    Safe m₀ (Sized.run bound arg) (Machine.run bound arg) m := by
  refine (reset h arg).bind fun _ m₁ _ h₁ => (runFor h₁ bound).bind fun halted m₂ _ h₂ => ?_
  cases halted with
  | true => exact looking_bind (looks_read 0) h₂ fun result _ => ⟨h₂, fun _ => rfl⟩
  | false => exact ⟨h₂, fun _ => rfl⟩

end Safe

end Machine

end Solo
