import Solo.Grammar.Tokens
import Solo.Proofs.Layout
import Solo.Proofs.Slots

/-! How many operands there are at each place of a function's code. Code is gone through once, from
its first instruction to its last; `Checked` says that each instruction finds its operands, uses a slot
of the frame, and goes only to places where the count is the same. The code of every tree is. -/

namespace Solo

open Bytecode (bodyAddr)

namespace Instruction

/-- How many operands the instruction takes off. -/
def pops : Instruction → Nat
  | .store _ | .call _ | .ret => 1
  | .arith _ | .branch _ _ => 2
  | .nop | .push _ | .load _ | .goto _ | .stop => 0

/-- How many operands it leaves. What a call leaves is there when it has returned. -/
def pushes : Instruction → Nat
  | .push _ | .load _ | .arith _ | .call _ => 1
  | .nop | .store _ | .branch _ _ | .goto _ | .ret | .stop => 0

def settle (d : Nat) (i : Instruction) : Nat := d - i.pops + i.pushes

end Instruction

open Instruction (settle)

/-- How many operands there are behind `is` if there are `d` before. -/
def depth (d : Nat) (is : List Instruction) : Nat := is.foldl settle d

theorem depth_append (d : Nat) (is js : List Instruction) :
    depth d (is ++ js) = depth (depth d is) js := List.foldl_append

/-- The address is that of an instruction of the body, with no operands before it. -/
def Lands (body : List Instruction) (addr : Nat) : Prop :=
  ∃ pre post, body = pre ++ post ∧ addr = bodyAddr + width pre ∧ depth 0 pre = 0 ∧ post ≠ []

/-- What must hold of an instruction of the body that has `d` operands before it. -/
structure Legal (body : List Instruction) (frameSize d : Nat) (i : Instruction) : Prop where
  pops : i.pops ≤ d
  slot : ∀ k, i.slot? = some k → k < frameSize
  target : match i with
    | .branch _ target => d = 2 ∧ Lands body target
    | .goto target => d = 0 ∧ Lands body target
    | .call target => target = bodyAddr
    | .stop => False
    | _ => True

/-- Every instruction of a part of the body is legal, if there are `d` operands before the first. -/
def Checked (body : List Instruction) (frameSize : Nat) : Nat → List Instruction → Prop
  | _, [] => True
  | d, i :: is => Legal body frameSize d i ∧ Checked body frameSize (settle d i) is

section

variable {body : List Instruction} {frameSize : Nat}

theorem checked_append {d : Nat} {is js : List Instruction} :
    Checked body frameSize d (is ++ js) ↔
      Checked body frameSize d is ∧ Checked body frameSize (depth d is) js := by
  induction is generalizing d with
  | nil => simp [Checked, depth]
  | cons i is ih =>
    rw [List.cons_append, Checked, ih, Checked, and_assoc]
    rfl

theorem Checked.legal {d : Nat} {pre post : List Instruction} {i : Instruction}
    (h : Checked body frameSize d (pre ++ i :: post)) : Legal body frameSize (depth d pre) i :=
  (checked_append.1 h).2.1

/-- In the body `part` stands at `addr`, with no operands before it and with more code behind it. -/
def StandsAt (body : List Instruction) (addr : Nat) (part : List Instruction) : Prop :=
  ∃ pre post, body = pre ++ part ++ post ∧ addr = bodyAddr + width pre ∧ depth 0 pre = 0 ∧ post ≠ []

namespace StandsAt

variable {addr : Nat} {is js : List Instruction}

theorem left (h : StandsAt body addr (is ++ js)) : StandsAt body addr is := by
  obtain ⟨pre, post, hbody, haddr, hdepth, hpost⟩ := h
  exact ⟨pre, js ++ post, by rw [hbody]; simp, haddr, hdepth, by simp [hpost]⟩

theorem right (h : StandsAt body addr (is ++ js)) (his : depth 0 is = 0) :
    StandsAt body (addr + width is) js := by
  obtain ⟨pre, post, hbody, haddr, hdepth, hpost⟩ := h
  refine ⟨pre ++ is, post, by rw [hbody]; simp, ?_, ?_, hpost⟩
  · rw [haddr, width_append, Nat.add_assoc]
  · rw [depth_append, hdepth, his]

theorem lands (h : StandsAt body addr is) : Lands body addr := by
  obtain ⟨pre, post, hbody, haddr, hdepth, hpost⟩ := h
  exact ⟨pre, is ++ post, by rw [hbody, List.append_assoc], haddr, hdepth, by simp [hpost]⟩

theorem lands_end (h : StandsAt body addr is) (his : depth 0 is = 0) :
    Lands body (addr + width is) := by
  rw [← List.append_nil is] at h
  exact (h.right his).lands

end StandsAt

end

/-- If the token is a name, it has a slot in frames of the given size. -/
def Token.InFrame (slot : String → Nat) (frameSize : Nat) (t : Token) : Prop :=
  ∀ x, t.name? = some x → slot x < frameSize

namespace Grammar

variable {slot : String → Nat}

mutual

theorem Expression.depth_code (d : Nat) : (e : Expression) → depth d (e.code slot) = d + 1
  | .term t => t.depth_code d
  | .sum e op t => by
    rw [Expression.code, depth_append, depth_append, e.depth_code, t.depth_code]
    rfl

theorem Term.depth_code (d : Nat) : (t : Term) → depth d (t.code slot) = d + 1
  | .factor f => f.depth_code d
  | .product f op t => by
    rw [Term.code, depth_append, depth_append, f.depth_code, t.depth_code]
    rfl

theorem Factor.depth_code (d : Nat) : (f : Factor) → depth d (f.code slot) = d + 1
  | .number _ => rfl
  | .name _ => rfl
  | .group e => e.depth_code d
  | .call _ arg => by
    rw [Factor.code, depth_append, arg.depth_code]
    rfl

end

theorem Condition.depth_code (c : Condition) (target : Nat) : depth 0 (c.code slot target) = 0 := by
  rw [Condition.code, depth_append, depth_append, c.left.depth_code, c.right.depth_code]
  rfl

mutual

theorem Statement.depth_code : (s : Statement) → (addr : Nat) → depth 0 (s.code slot addr) = 0
  | .assign _ e, _ => by
    rw [Statement.code, depth_append, e.depth_code]
    rfl
  | .ifElse c yes no, addr => by
    rw [Statement.code, depth_append, depth_append, depth_append, c.depth_code, yes.depth_code]
    exact no.depth_code _
  | .whileDo c body, addr => by
    rw [Statement.code, depth_append, depth_append, c.depth_code, body.depth_code]
    rfl
  | .ret e, _ => by
    rw [Statement.code, depth_append, e.depth_code]
    rfl
  | .block b, addr => b.depth_code addr
  | .skip, _ => rfl

theorem Block.depth_code : (b : Block) → (addr : Nat) → depth 0 (b.code slot addr) = 0
  | .nil, _ => rfl
  | .cons s b, addr => by
    rw [Block.code, depth_append, s.depth_code, b.depth_code]

end

variable {body : List Instruction} {frameSize : Nat}

mutual

theorem Expression.checked (d : Nat) : (e : Expression) →
    (∀ t ∈ e.tokens slot, t.InFrame slot frameSize) → Checked body frameSize d (e.code slot)
  | .term t, h => t.checked d h
  | .sum e op t, h => by
    obtain ⟨he, ht⟩ := List.forall_mem_append.1 h
    have hop : Legal body frameSize (d + 1 + 1) (.arith op.arith) :=
      ⟨Nat.le_add_left 2 d, nofun, trivial⟩
    rw [Expression.code, checked_append, checked_append, depth_append, e.depth_code, t.depth_code]
    exact ⟨⟨e.checked d he, t.checked (d + 1) (List.forall_mem_cons.1 ht).2⟩, hop, trivial⟩

theorem Term.checked (d : Nat) : (t : Term) →
    (∀ tok ∈ t.tokens slot, tok.InFrame slot frameSize) → Checked body frameSize d (t.code slot)
  | .factor f, h => f.checked d h
  | .product f op t, h => by
    obtain ⟨hf, ht⟩ := List.forall_mem_append.1 h
    have hop : Legal body frameSize (d + 1 + 1) (.arith op.arith) :=
      ⟨Nat.le_add_left 2 d, nofun, trivial⟩
    rw [Term.code, checked_append, checked_append, depth_append, f.depth_code, t.depth_code]
    exact ⟨⟨f.checked d hf, t.checked (d + 1) (List.forall_mem_cons.1 ht).2⟩, hop, trivial⟩

theorem Factor.checked (d : Nat) : (f : Factor) →
    (∀ t ∈ f.tokens slot, t.InFrame slot frameSize) → Checked body frameSize d (f.code slot)
  | .number value, _ => ⟨⟨Nat.zero_le d, nofun, trivial⟩, trivial⟩
  | .name x, h => by
    have hx : slot x < frameSize := h _ (List.mem_singleton_self _) x rfl
    exact ⟨⟨Nat.zero_le d, fun _ hk => Option.some.inj hk ▸ hx, trivial⟩, trivial⟩
  | .group e, h => e.checked d fun t ht => h t (by simp [Factor.tokens, inParens, ht])
  | .call f arg, h => by
    have hcall : Legal body frameSize (d + 1) (.call bodyAddr) :=
      ⟨Nat.le_add_left 1 d, nofun, rfl⟩
    rw [Factor.code, checked_append, arg.depth_code]
    exact ⟨arg.checked d fun t ht => h t (by simp [Factor.tokens, inParens, ht]), hcall, trivial⟩

end

theorem Condition.checked (c : Condition) (h : ∀ t ∈ c.tokens slot, t.InFrame slot frameSize)
    {target : Nat} (hlands : Lands body target) : Checked body frameSize 0 (c.code slot target) := by
  have hleft : Checked body frameSize 0 (c.left.code slot) :=
    c.left.checked 0 fun t ht => h t (by simp [Condition.tokens, inParens, ht])
  have hright : Checked body frameSize 1 (c.right.code slot) :=
    c.right.checked 1 fun t ht => h t (by simp [Condition.tokens, inParens, ht])
  have hbranch : Legal body frameSize 2 (.branch c.relation.negated target) :=
    ⟨Nat.le_refl 2, nofun, rfl, hlands⟩
  rw [Condition.code, checked_append, checked_append, depth_append, c.left.depth_code,
    c.right.depth_code]
  exact ⟨⟨hleft, hright⟩, hbranch, trivial⟩

mutual

theorem Statement.checked : (s : Statement) → {addr : Nat} →
    StandsAt body addr (s.code slot addr) → (∀ t ∈ s.tokens slot, t.InFrame slot frameSize) →
    Checked body frameSize 0 (s.code slot addr)
  | .assign x e, addr, _, h => by
    have hx : slot x < frameSize := h _ List.mem_cons_self x rfl
    have hstore : Legal body frameSize 1 (.store (slot x)) :=
      ⟨Nat.le_refl 1, fun _ hk => Option.some.inj hk ▸ hx, trivial⟩
    have he : Checked body frameSize 0 (e.code slot) :=
      e.checked 0 fun t ht => h t (by simp [Statement.tokens, ht])
    rw [Statement.code, checked_append, e.depth_code]
    exact ⟨he, hstore, trivial⟩
  | .ifElse c yes no, addr, hstands, h => by
    have hc : ∀ t ∈ c.tokens slot, t.InFrame slot frameSize :=
      fun t ht => h t (by simp [Statement.tokens, ht])
    have hyes : ∀ t ∈ yes.tokens slot, t.InFrame slot frameSize :=
      fun t ht => h t (by simp [Statement.tokens, ht])
    have hno : ∀ t ∈ no.tokens slot, t.InFrame slot frameSize :=
      fun t ht => h t (by simp [Statement.tokens, ht])
    have hend := hstands.lands_end (Statement.depth_code _ addr)
    rw [Statement.width_code, Statement.size, ← Nat.add_assoc, ← Nat.add_assoc, ← Nat.add_assoc]
      at hend
    have hgoto : Legal body frameSize 0 (.goto (addr + c.size + yes.size + 2 + no.size)) :=
      ⟨Nat.le_refl 0, nofun, rfl, hend⟩
    rw [Statement.code] at hstands
    have hyesAt := hstands.left.left.right (c.depth_code _)
    rw [Condition.width_code] at hyesAt
    have hnoAt := hstands.right (by
      rw [depth_append, depth_append, c.depth_code, yes.depth_code]
      rfl)
    rw [width_append, width_append, Condition.width_code, Statement.width_code,
      ← Nat.add_assoc, ← Nat.add_assoc] at hnoAt
    simp only [Statement.code, checked_append, depth_append, c.depth_code, yes.depth_code]
    exact ⟨⟨⟨c.checked hc hnoAt.lands, yes.checked hyesAt hyes⟩, hgoto, trivial⟩,
      no.checked hnoAt hno⟩
  | .whileDo c s, addr, hstands, h => by
    have hc : ∀ t ∈ c.tokens slot, t.InFrame slot frameSize :=
      fun t ht => h t (by simp [Statement.tokens, ht])
    have hs : ∀ t ∈ s.tokens slot, t.InFrame slot frameSize :=
      fun t ht => h t (by simp [Statement.tokens, ht])
    have hend := hstands.lands_end (Statement.depth_code _ addr)
    have hgoto : Legal body frameSize 0 (.goto addr) := ⟨Nat.le_refl 0, nofun, rfl, hstands.lands⟩
    rw [Statement.code] at hstands
    have hat := hstands.left.right (c.depth_code _)
    rw [Condition.width_code] at hat
    rw [Statement.width_code, Statement.size, ← Nat.add_assoc, ← Nat.add_assoc] at hend
    rw [Statement.code, checked_append, checked_append, depth_append, c.depth_code, s.depth_code]
    exact ⟨⟨c.checked hc hend, s.checked hat hs⟩, hgoto, trivial⟩
  | .ret e, addr, _, h => by
    have hret : Legal body frameSize 1 .ret := ⟨Nat.le_refl 1, nofun, trivial⟩
    have he : Checked body frameSize 0 (e.code slot) :=
      e.checked 0 fun t ht => h t (by simp [Statement.tokens, ht])
    rw [Statement.code, checked_append, e.depth_code]
    exact ⟨he, hret, trivial⟩
  | .block b, addr, hstands, h =>
    b.checked hstands fun t ht => h t (by simp [Statement.tokens, inBraces, ht])
  | .skip, _, _, _ => trivial

theorem Block.checked : (b : Block) → {addr : Nat} → StandsAt body addr (b.code slot addr) →
    (∀ t ∈ b.tokens slot, t.InFrame slot frameSize) → Checked body frameSize 0 (b.code slot addr)
  | .nil, _, _, _ => trivial
  | .cons s b, addr, hstands, h => by
    obtain ⟨hs, hb⟩ := List.forall_mem_append.1 h
    have hrest := hstands.right (s.depth_code addr)
    rw [Statement.width_code] at hrest
    rw [Block.code, checked_append, s.depth_code]
    exact ⟨s.checked hstands.left hs, b.checked hrest hb⟩

end

end Grammar

end Solo
