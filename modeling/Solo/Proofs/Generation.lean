import Solo.Compile.Program
import Solo.Grammar.Tokens
import Solo.Proofs.Capacity
import Solo.Proofs.Drafting
import Solo.Proofs.Layout
import Solo.Proofs.Lexing

/-! What the compiler's rules write for the tokens of a tree is the tree's code: jumps that are
patched once their target is known get the addresses that follow from the sizes. The induction is on
the tree, and the depth that a rule needs is measured by the number of tokens. -/

namespace Solo

open Bytecode (bodyAddr)
open Grammar

namespace Draft

/-- The tokens `ts` stand ahead, and nothing but ends of file behind them. -/
structure Ahead (d : Draft) (ts : List Token) : Prop where
  ends : ∃ pos, d.ending = .eof pos
  tokens : ∀ i, d.tokens.getD i .eof = ts.getD i .eof

theorem getD_concat_eof (ts : List Token) (i : Nat) :
    (ts ++ [Token.eof]).getD i .eof = ts.getD i .eof := by
  rw [List.getD_eq_getElem?_getD, List.getD_eq_getElem?_getD, List.getElem?_append]
  split
  · rfl
  · next h => cases hi : i - ts.length <;> simp [List.getElem?_eq_none (Nat.le_of_not_lt h)]

/-- Since `d` the code `is` has been written, and `ts` stand ahead. -/
structure Stage (d : Draft) (is : List Instruction) (ts : List Token) (d' : Draft) : Prop where
  ahead : d'.Ahead ts
  capacity : d'.capacity = d.capacity
  code : d'.code.toList = d.code.toList ++ is
  size : d'.size = d.size + width is

variable {d d₁ d₂ : Draft} {is js : List Instruction} {ts us : List Token} {t : Token}

theorem Ahead.token (h : d.Ahead ts) : d.ahead.token = ts.headD .eof := by
  have := h.tokens 0
  cases ts <;> simpa [Draft.tokens] using this

theorem Ahead.advance (h : d.Ahead (t :: ts)) : ∃ d', advance d = .ok () d' ∧ d'.Ahead ts ∧
    d'.capacity = d.capacity ∧ d'.code = d.code ∧ d'.size = d.size := by
  obtain ⟨⟨pos, hpos⟩, htokens⟩ := h
  have hnext : ∀ i, (d.rest.map (·.token)).getD i .eof = ts.getD i .eof := fun i => by
    simpa [Draft.tokens] using htokens (i + 1)
  cases hrest : d.rest with
  | cons l rest =>
    rw [hrest] at hnext
    exact ⟨{ d with ahead := l, rest }, by simp [Draft.advance, hrest], ⟨⟨pos, hpos⟩, hnext⟩,
      rfl, rfl, rfl⟩
  | nil =>
    rw [hrest] at hnext
    refine ⟨{ d with ahead := ⟨pos, .eof⟩ }, by simp [Draft.advance, hrest, hpos],
      ⟨⟨pos, hpos⟩, fun i => ?_⟩, rfl, rfl, rfl⟩
    rw [← hnext i]
    cases i <;> simp [Draft.tokens, hrest]

namespace Stage

theorem refl (h : d.Ahead ts) : d.Stage [] ts d := ⟨h, rfl, by simp, by simp⟩

theorem trans (h : d.Stage is ts d₁) (h' : d₁.Stage js us d₂) : d.Stage (is ++ js) us d₂ where
  ahead := h'.ahead
  capacity := by rw [h'.capacity, h.capacity]
  code := by rw [h'.code, h.code, List.append_assoc]
  size := by rw [h'.size, h.size, width_append, Nat.add_assoc]

theorem advance (h : d.Stage is (t :: ts) d₁) :
    ∃ d₂, Draft.advance d₁ = .ok () d₂ ∧ d.Stage is ts d₂ := by
  obtain ⟨d₂, hok, hahead, hcapacity, hcode, hsize⟩ := h.ahead.advance
  exact ⟨d₂, hok, hahead, hcapacity.trans h.capacity, by rw [hcode, h.code], hsize.trans h.size⟩

theorem expect (h : d.Stage is (t :: ts) d₁) :
    ∃ d₂, Draft.expect t d₁ = .ok () d₂ ∧ d.Stage is ts d₂ := by
  obtain ⟨d₂, hok, h₂⟩ := h.advance
  refine ⟨d₂, ?_, h₂⟩
  have ht : d₁.ahead.token = t := h.ahead.token
  rw [Draft.expect, Toolkit.expect, token_bind, if_pos ht]
  exact hok

theorem name {x : String} {k : Nat} (h : d.Stage is (.ident x k :: ts) d₁) (expected : Expected) :
    ∃ d₂, Draft.name expected d₁ = .ok k d₂ ∧ d.Stage is ts d₂ := by
  obtain ⟨d₂, hok, h₂⟩ := h.advance
  refine ⟨d₂, ?_, h₂⟩
  rw [Draft.name, Toolkit.name, token_bind, h.ahead.token]
  exact bind_of_ok hok

theorem emit (h : d.Stage is ts d₁) {i : Instruction}
    (room : d.size + width (is ++ [i]) ≤ d.capacity) :
    ∃ d₂, Draft.emit i d₁ = .ok () d₂ ∧ d.Stage (is ++ [i]) ts d₂ := by
  have hsize : d₁.size + i.width = d.size + width (is ++ [i]) := by
    rw [h.size, width_append, Nat.add_assoc]
    rfl
  refine ⟨_, emit_eq_ok.2 ⟨?_, rfl⟩, ⟨h.ahead.ends, h.ahead.tokens⟩, h.capacity, ?_, hsize⟩
  · rw [hsize, h.capacity]
    exact room
  · rw [Array.toList_push, h.code, List.append_assoc]

theorem emitJump (h : d.Stage is ts d₁) {i : Instruction}
    (room : d.size + width (is ++ [i]) ≤ d.capacity) :
    ∃ d₂, Draft.emitJump i d₁ = .ok (d.code.size + is.length) d₂ ∧ d.Stage (is ++ [i]) ts d₂ := by
  obtain ⟨d₂, hok, h₂⟩ := h.emit room
  have hindex : d₁.code.size = d.code.size + is.length := by
    rw [← Array.length_toList, h.code, List.length_append, Array.length_toList]
  refine ⟨d₂, ?_, h₂⟩
  rw [← hindex]
  exact bind_of_ok hok

/-- The jump behind `is` goes to the next instruction. -/
theorem patch {i : Instruction} (h : d.Stage (is ++ i :: js) ts d₁) :
    ∃ d₂, Draft.patch (d.code.size + is.length) d₁ = .ok () d₂ ∧
      d.Stage (is ++ i.retarget (d.size + width (is ++ i :: js)) :: js) ts d₂ := by
  have hindex : d.code.size + is.length = (d.code.toList ++ is).length := by simp
  refine ⟨_, rfl, ⟨h.ahead.ends, h.ahead.tokens⟩, h.capacity, ?_, ?_⟩
  · rw [Array.toList_modify, h.code, h.size, hindex, ← List.append_assoc, List.modify_eq_take_drop,
      List.take_left, List.drop_left, List.modifyHead_cons, List.append_assoc]
  · rw [h.size, width_append, width_append, width_cons, width_cons, Instruction.width_retarget]

end Stage

end Draft

namespace Rules

open Draft

/-- For the tokens `ts`, with a token behind them at which `stop` holds, the rule writes `is`, which
may depend on where it starts. -/
def Writes (rule : Drafting Unit) (ts : List Token) (is : Nat → List Instruction)
    (stop : Token → Prop) : Prop :=
  ∀ ⦃d us⦄, d.Ahead (ts ++ us) → stop (us.headD .eof) → d.size + width (is d.size) ≤ d.capacity →
    ∃ d', rule d = .ok () d' ∧ d.Stage (is d.size) us d'

theorem Writes.after {rule : Drafting Unit} {ts us : List Token} {is : Nat → List Instruction}
    {stop : Token → Prop} (h : Writes rule ts is stop) {d d₁ : Draft} {js : List Instruction}
    (s : d.Stage js (ts ++ us) d₁) (hstop : stop (us.headD .eof))
    (room : d.size + width (js ++ is (d.size + width js)) ≤ d.capacity) :
    ∃ d₂, rule d₁ = .ok () d₂ ∧ d.Stage (js ++ is (d.size + width js)) us d₂ := by
  rw [width_append, ← Nat.add_assoc, ← s.size, ← s.capacity] at room
  obtain ⟨d₂, hok, h₂⟩ := h s.ahead hstop room
  exact ⟨d₂, hok, s.size ▸ s.trans h₂⟩

theorem Writes.between {inner : Drafting Unit} {ts : List Token} {is : Nat → List Instruction}
    {stop : Token → Prop} (h : Writes inner ts is stop) {l r : Token} (hr : stop r) :
    Writes (do expect l; inner; expect r) (l :: ts ++ [r]) is fun _ => True := by
  intro d us hahead _ room
  rw [List.append_assoc] at hahead
  obtain ⟨d₁, h₁, s₁⟩ := (Stage.refl hahead).expect
  obtain ⟨d₂, h₂, s₂⟩ := h.after s₁ hr room
  obtain ⟨d₃, h₃, s₃⟩ := s₂.expect
  exact ⟨d₃, (bind_of_ok h₁).trans ((bind_of_ok h₂).trans h₃), s₃⟩

/-- No product goes on at `t`. -/
def EndsTerm (t : Token) : Prop := t ≠ .punct .lparen ∧ multiplicative? t = none

/-- No sum goes on at `t`. -/
def EndsSum (t : Token) : Prop := EndsTerm t ∧ additive? t = none

theorem additive_sumOp (op : SumOp) : additive? (.punct op.punct) = some op.arith := by
  cases op <;> rfl

theorem multiplicative_productOp (op : ProductOp) :
    multiplicative? (.punct op.punct) = some op.arith := by
  cases op <;> rfl

theorem negated_relation (r : Relation) : negated? (.punct r.punct) = some r.negated := by
  cases r <;> rfl

theorem endsTerm_sumOp (op : SumOp) : EndsTerm (.punct op.punct) := by
  cases op <;> exact ⟨by decide, rfl⟩

theorem endsSum_relation (r : Relation) : EndsSum (.punct r.punct) := by
  cases r <;> exact ⟨⟨by decide, rfl⟩, rfl⟩

theorem endsSum_rparen : EndsSum (.punct .rparen) := ⟨⟨by decide, rfl⟩, rfl⟩

theorem endsSum_semicolon : EndsSum (.punct .semicolon) := ⟨⟨by decide, rfl⟩, rfl⟩

variable (slot : String → Nat)

/-- Sums group to the left, so the rule has written all of `e` when it looks for one more summand. -/
def Unrolls (e : Expression) : Prop :=
  ∀ ⦃n d us⦄, 3 * (e.tokens slot).length ≤ n → d.Ahead (e.tokens slot ++ us) →
    EndsTerm (us.headD .eof) → d.size + e.size ≤ d.capacity →
    ∃ k d', expression (m := Drafting) bodyAddr n d = operations (m := Drafting) additive? bodyAddr k d' ∧
      d.Stage (e.code slot) us d' ∧ n ≤ k + (e.tokens slot).length

theorem length_tokens_pos (e : Expression) : 0 < (e.tokens slot).length := by
  cases e with
  | sum e op t =>
    simp only [Expression.tokens, List.length_append, List.length_cons]
    omega
  | term t =>
    cases t with
    | product f op t =>
      simp only [Expression.tokens, Term.tokens, List.length_append, List.length_cons]
      omega
    | factor f => cases f <;> simp [Expression.tokens, Term.tokens, Factor.tokens, inParens]

variable {slot}

theorem operations_of_none {op? : Token → Option Arith} {n : Nat} {d : Draft}
    (h : op? d.ahead.token = none) : operations (m := Drafting) op? bodyAddr (n + 1) d = .ok () d := by
  rw [operations, token_bind, h]
  rfl

/-- One operator and the term behind it, with whatever comes then. -/
theorem operations_of_some {op? : Token → Option Arith} {p : Punct} {op : Arith}
    (hop : op? (.punct p) = some op) {t : Term} {n : Nat}
    (ht : Writes (term bodyAddr n) (t.tokens slot) (fun _ => t.code slot) EndsTerm) {d d₁ : Draft}
    {is : List Instruction} {us : List Token} (s : d.Stage is (.punct p :: t.tokens slot ++ us) d₁)
    (hstop : EndsTerm (us.headD .eof)) (room : d.size + width is + t.size + 1 ≤ d.capacity) :
    ∃ d₂, operations (m := Drafting) op? bodyAddr (n + 1) d₁ =
        operations (m := Drafting) op? bodyAddr n d₂ ∧
      d.Stage (is ++ t.code slot ++ [.arith op]) us d₂ := by
  obtain ⟨d₂, h₂, s₂⟩ := s.advance
  obtain ⟨d₃, h₃, s₃⟩ := ht.after s₂ hstop (by simp; omega)
  obtain ⟨d₄, h₄, s₄⟩ := s₃.emit (i := .arith op)
    (by simp [Instruction.width, Instruction.operand]; omega)
  refine ⟨d₄, ?_, s₄⟩
  have htoken : d₁.ahead.token = .punct p := s.ahead.token
  rw [operations, token_bind, htoken, hop]
  exact (bind_of_ok h₂).trans ((bind_of_ok h₃).trans (bind_of_ok h₄))

theorem Unrolls.writes {e : Expression} (h : Unrolls slot e) {n : Nat}
    (hn : 3 * (e.tokens slot).length ≤ n) :
    Writes (expression bodyAddr n) (e.tokens slot) (fun _ => e.code slot) EndsSum := by
  intro d us hahead hstop room
  rw [Expression.width_code] at room
  obtain ⟨m, d', hd, s, hm⟩ := h hn hahead hstop.1 room
  have := length_tokens_pos slot e
  obtain ⟨m, rfl⟩ : ∃ k, m = k + 1 := ⟨m - 1, by omega⟩
  refine ⟨d', ?_, s⟩
  rw [hd]
  exact operations_of_none (s.ahead.token ▸ hstop.2)

variable (slot)

mutual

theorem unrolls : (e : Expression) → Unrolls slot e
  | .term t => by
    intro n d us hn hahead hstop room
    rw [Expression.tokens] at hn hahead
    have := length_tokens_pos slot (.term t)
    rw [Expression.tokens] at this
    obtain ⟨n, rfl⟩ : ∃ k, n = k + 1 := ⟨n - 1, by omega⟩
    obtain ⟨d', hd, s⟩ := writes_term t (n := n) (by omega) hahead hstop
      (by rw [Term.width_code]; exact room)
    refine ⟨n, d', ?_, s, ?_⟩
    · rw [expression, bind_of_ok hd]
    · rw [Expression.tokens]
      omega
  | .sum e op t => by
    intro n d us hn hahead hstop room
    simp only [Expression.tokens, List.length_append, List.length_cons] at hn
    rw [Expression.tokens, List.append_assoc] at hahead
    rw [Expression.size] at room
    obtain ⟨m, d₁, h₁, s₁, hm⟩ := unrolls e (n := n) (by omega) hahead (endsTerm_sumOp op) (by omega)
    obtain ⟨m, rfl⟩ : ∃ k, m = k + 1 := ⟨m - 1, by omega⟩
    obtain ⟨d₂, h₂, s₂⟩ := operations_of_some (additive_sumOp op) (writes_term t (n := m) (by omega)) s₁
      hstop (by simp; omega)
    refine ⟨m, d₂, h₁.trans h₂, s₂, ?_⟩
    simp only [Expression.tokens, List.length_append, List.length_cons]
    omega

theorem writes_term : (t : Term) → ∀ {n : Nat}, 3 * (t.tokens slot).length ≤ n + 1 →
    Writes (term bodyAddr n) (t.tokens slot) (fun _ => t.code slot) EndsTerm
  | .factor f, n, hn => by
    intro d us hahead hstop room
    have := length_tokens_pos slot (.term (.factor f))
    rw [Expression.tokens] at this
    obtain ⟨n, rfl⟩ : ∃ k, n = k + 2 := ⟨n - 2, by omega⟩
    rw [Term.tokens] at hn hahead
    obtain ⟨d', hd, s⟩ := writes_factor f (n := n + 1) (by omega) hahead hstop.1 room
    refine ⟨d', ?_, s⟩
    rw [term, bind_of_ok hd]
    exact operations_of_none (s.ahead.token ▸ hstop.2)
  | .product f op t, n, hn => by
    intro d us hahead hstop room
    simp only [Term.tokens, List.length_append, List.length_cons] at hn
    rw [Term.tokens, List.append_assoc] at hahead
    rw [Term.width_code, Term.size] at room
    have := length_tokens_pos slot (.term t)
    rw [Expression.tokens] at this
    obtain ⟨n, rfl⟩ : ∃ k, n = k + 3 := ⟨n - 3, by omega⟩
    have hop : Token.punct op.punct ≠ .punct .lparen := by cases op <;> decide
    obtain ⟨d₁, h₁, s₁⟩ := writes_factor f (n := n + 2) (by omega) hahead hop
      (by rw [Factor.width_code]; omega)
    obtain ⟨d₂, h₂, s₂⟩ := operations_of_some (multiplicative_productOp op)
      (writes_term t (n := n + 1) (by omega)) s₁ hstop (by simp; omega)
    refine ⟨d₂, ?_, s₂⟩
    -- the term behind the operator has taken all the operators that follow
    rw [term, bind_of_ok h₁, h₂]
    exact operations_of_none (s₂.ahead.token ▸ hstop.2)

theorem writes_factor : (f : Factor) → ∀ {n : Nat}, 3 * (f.tokens slot).length ≤ n + 2 →
    Writes (factor bodyAddr n) (f.tokens slot) (fun _ => f.code slot) (· ≠ .punct .lparen)
  | .number value, n, hn => by
    intro d us hahead _ room
    simp only [Factor.tokens, List.length_cons] at hn
    obtain ⟨n, rfl⟩ : ∃ k, n = k + 1 := ⟨n - 1, by omega⟩
    obtain ⟨d₁, h₁, s₁⟩ := (Stage.refl hahead).emit room
    obtain ⟨d₂, h₂, s₂⟩ := s₁.advance
    refine ⟨d₂, ?_, s₂⟩
    rw [factor, token_bind, hahead.token]
    exact (bind_of_ok h₁).trans h₂
  | .name x, n, hn => by
    intro d us hahead hstop room
    simp only [Factor.tokens, List.length_cons] at hn
    obtain ⟨n, rfl⟩ : ∃ k, n = k + 1 := ⟨n - 1, by omega⟩
    obtain ⟨d₁, h₁, s₁⟩ := (Stage.refl hahead).advance
    obtain ⟨d₂, h₂, s₂⟩ := s₁.emit room
    refine ⟨d₂, ?_, s₂⟩
    rw [factor, token_bind, hahead.token]
    refine (bind_of_ok h₁).trans ?_
    rw [token_bind, s₁.ahead.token]
    exact (congrFun (if_neg hstop) d₁).trans h₂
  | .group e, n, hn => by
    intro d us hahead _ room
    simp only [Factor.tokens, inParens, List.length_append, List.length_cons] at hn
    obtain ⟨n, rfl⟩ : ∃ k, n = k + 1 := ⟨n - 1, by omega⟩
    have he := (unrolls e).writes (n := n) (by omega)
    obtain ⟨d₁, h₁, s₁⟩ := he.between endsSum_rparen hahead trivial room
    refine ⟨d₁, ?_, s₁⟩
    rw [factor, token_bind, hahead.token]
    exact h₁
  | .call f arg, n, hn => by
    intro d us hahead _ room
    simp only [Factor.tokens, inParens, List.length_append, List.length_cons] at hn
    rw [Factor.width_code, Factor.size] at room
    obtain ⟨n, rfl⟩ : ∃ k, n = k + 1 := ⟨n - 1, by omega⟩
    have he := (unrolls arg).writes (n := n) (by omega)
    obtain ⟨d₁, h₁, s₁⟩ := (Stage.refl hahead).advance
    obtain ⟨d₂, h₂, s₂⟩ := (he.between endsSum_rparen).after s₁ trivial (by simp; omega)
    obtain ⟨d₃, h₃, s₃⟩ := s₂.emit (i := .call bodyAddr)
      (by simp [Instruction.width, Instruction.operand]; omega)
    refine ⟨d₃, ?_, s₃⟩
    rw [factor, token_bind, hahead.token]
    refine (bind_of_ok h₁).trans ?_
    rw [token_bind, s₁.ahead.token]
    exact (bind_of_ok h₂).trans h₃

end

variable {slot}

/-- What is written for a condition before it is known where the jump goes. -/
theorem condition_after {c : Condition} {n : Nat} (hn : 3 * (c.tokens slot).length ≤ n)
    {d d₁ : Draft} {us : List Token} (s : d.Stage [] (c.tokens slot ++ us) d₁)
    (room : d.size + c.size ≤ d.capacity) :
    ∃ d₂, condition (m := Drafting) bodyAddr n d₁ =
        .ok (d.code.size + (c.left.code slot ++ c.right.code slot).length) d₂ ∧
      d.Stage (c.code slot 0) us d₂ := by
  simp only [Condition.tokens, inParens, List.length_append, List.length_cons] at hn
  simp only [Condition.tokens, inParens, List.cons_append, List.append_assoc, List.nil_append] at s
  rw [Condition.size] at room
  obtain ⟨d₂, h₂, s₂⟩ := s.expect
  obtain ⟨d₃, h₃, s₃⟩ := ((unrolls slot c.left).writes (n := n) (by omega)).after s₂
    (endsSum_relation c.relation) (by simp; omega)
  obtain ⟨d₄, h₄, s₄⟩ := s₃.advance
  obtain ⟨d₅, h₅, s₅⟩ := ((unrolls slot c.right).writes (n := n) (by omega)).after s₄
    endsSum_rparen (by simp; omega)
  obtain ⟨d₆, h₆, s₆⟩ := s₅.expect
  obtain ⟨d₇, h₇, s₇⟩ := s₆.emitJump (i := .branch c.relation.negated 0)
    (by simp [Instruction.width, Instruction.operand]; omega)
  refine ⟨d₇, ?_, s₇⟩
  refine (bind_of_ok h₂).trans ((bind_of_ok h₃).trans ?_)
  rw [token_bind, s₃.ahead.token, List.headD_cons, negated_relation]
  exact (bind_of_ok h₄).trans ((bind_of_ok h₅).trans ((bind_of_ok h₆).trans h₇))

theorem patch_condition {c : Condition} {d d₁ : Draft} {js : List Instruction} {us : List Token}
    (s : d.Stage (c.code slot 0 ++ js) us d₁) :
    ∃ d₂, patch (d.code.size + (c.left.code slot ++ c.right.code slot).length) d₁ = .ok () d₂ ∧
      d.Stage (c.code slot (d.size + c.size + width js) ++ js) us d₂ := by
  have hcode : ∀ target, c.code slot target ++ js = (c.left.code slot ++ c.right.code slot) ++
      .branch c.relation.negated target :: js := fun target => by simp [Condition.code]
  have hwidth := width_append (c.code slot 0) js
  rw [Condition.width_code, hcode] at hwidth
  rw [hcode] at s
  obtain ⟨d₂, h₂, s₂⟩ := s.patch
  rw [hwidth, ← Nat.add_assoc] at s₂
  exact ⟨d₂, h₂, by rw [hcode]; exact s₂⟩

theorem tokens_statement (slot : String → Nat) (s : Statement) :
    ∃ t ts, s.tokens slot = t :: ts ∧ t ≠ .punct .rbrace := by
  cases s with
  | assign x e => exact ⟨_, _, rfl, by simp⟩
  | ifElse c yes no => exact ⟨_, _, rfl, by simp⟩
  | whileDo c body => exact ⟨_, _, rfl, by simp⟩
  | ret e => exact ⟨_, _, rfl, by simp⟩
  | block b => exact ⟨_, _, rfl, by simp⟩
  | skip => exact ⟨_, _, rfl, by simp⟩

variable (slot)

mutual

theorem writes_statement : (s : Statement) → ∀ {n : Nat}, 3 * (s.tokens slot).length ≤ n →
    Writes (statement bodyAddr n) (s.tokens slot) (s.code slot) fun _ => True
  | .assign x e, n, hn => by
    intro d us hahead _ room
    simp only [Statement.tokens, List.length_append, List.length_cons] at hn
    obtain ⟨n, rfl⟩ : ∃ k, n = k + 1 := ⟨n - 1, by omega⟩
    simp only [Statement.tokens, List.cons_append, List.append_assoc, List.nil_append] at hahead
    rw [Statement.width_code, Statement.size] at room
    obtain ⟨d₁, h₁, s₁⟩ := (Stage.refl hahead).advance
    obtain ⟨d₂, h₂, s₂⟩ := s₁.expect
    obtain ⟨d₃, h₃, s₃⟩ := ((unrolls slot e).writes (n := n) (by omega)).after s₂ endsSum_semicolon
      (by simp; omega)
    obtain ⟨d₄, h₄, s₄⟩ := s₃.emit (i := .store (slot x))
      (by simp [Instruction.width, Instruction.operand]; omega)
    obtain ⟨d₅, h₅, s₅⟩ := s₄.expect
    refine ⟨d₅, ?_, s₅⟩
    rw [statement, token_bind, hahead.token]
    exact (bind_of_ok h₁).trans ((bind_of_ok h₂).trans ((bind_of_ok h₃).trans
      ((bind_of_ok h₄).trans h₅)))
  | .ifElse c yes no, n, hn => by
    intro d us hahead _ room
    simp only [Statement.tokens, List.length_append, List.length_cons] at hn
    obtain ⟨n, rfl⟩ : ∃ k, n = k + 1 := ⟨n - 1, by omega⟩
    simp only [Statement.tokens, List.cons_append, List.append_assoc] at hahead
    rw [Statement.width_code, Statement.size] at room
    obtain ⟨d₁, h₁, s₁⟩ := (Stage.refl hahead).advance
    obtain ⟨d₂, h₂, s₂⟩ := condition_after (n := n) (by omega) s₁ (by omega)
    obtain ⟨d₃, h₃, s₃⟩ := (writes_statement yes (n := n) (by omega)).after s₂ trivial
      (by simp; omega)
    obtain ⟨d₄, h₄, s₄⟩ := s₃.emitJump (i := .goto 0)
      (by simp [Instruction.width, Instruction.operand]; omega)
    obtain ⟨d₅, h₅, s₅⟩ := s₄.expect
    rw [List.append_assoc (c.code slot 0)] at s₅
    obtain ⟨d₆, h₆, s₆⟩ := patch_condition s₅
    rw [← List.append_assoc] at s₆
    obtain ⟨d₇, h₇, s₇⟩ := (writes_statement no (n := n) (by omega)).after s₆ trivial
      (by simp [Instruction.width, Instruction.operand]; omega)
    rw [List.append_assoc _ [_]] at s₇
    obtain ⟨d₈, h₈, s₈⟩ := s₇.patch
    have hlength : ∀ a a', (c.code slot a).length = (c.code slot a').length := fun a a' => by
      simp [Condition.code]
    rw [List.length_append, hlength _ 0, ← List.length_append] at h₈
    refine ⟨d₈, ?_, ?_⟩
    · rw [statement, token_bind, hahead.token]
      exact (bind_of_ok h₁).trans ((bind_of_ok h₂).trans ((bind_of_ok h₃).trans
        ((bind_of_ok h₄).trans ((bind_of_ok h₅).trans ((bind_of_ok h₆).trans
        ((bind_of_ok h₇).trans h₈))))))
    · simpa [Statement.code, Instruction.width, Instruction.operand, Instruction.retarget,
        Nat.add_assoc] using s₈
  | .whileDo c body, n, hn => by
    intro d us hahead _ room
    simp only [Statement.tokens, List.length_append, List.length_cons] at hn
    obtain ⟨n, rfl⟩ : ∃ k, n = k + 1 := ⟨n - 1, by omega⟩
    simp only [Statement.tokens, List.cons_append, List.append_assoc] at hahead
    rw [Statement.width_code, Statement.size] at room
    obtain ⟨d₁, h₁, s₁⟩ := (Stage.refl hahead).advance
    obtain ⟨d₂, h₂, s₂⟩ := condition_after (n := n) (by omega) s₁ (by omega)
    obtain ⟨d₃, h₃, s₃⟩ := (writes_statement body (n := n) (by omega)).after s₂ trivial
      (by simp; omega)
    obtain ⟨d₄, h₄, s₄⟩ := s₃.emit (i := .goto d₁.size)
      (by simp [Instruction.width, Instruction.operand]; omega)
    rw [List.append_assoc] at s₄
    obtain ⟨d₅, h₅, s₅⟩ := patch_condition s₄
    refine ⟨d₅, ?_, ?_⟩
    · rw [statement, token_bind, hahead.token]
      exact (bind_of_ok h₁).trans ((bind_of_ok (show here d₁ = .ok d₁.size d₁ from rfl)).trans
        ((bind_of_ok h₂).trans ((bind_of_ok h₃).trans ((bind_of_ok h₄).trans h₅))))
    · have hsize : d₁.size = d.size := s₁.size
      simp only [width_append, Statement.width_code, Condition.width_code, hsize] at s₅
      rw [Statement.code, List.append_assoc]
      exact s₅
  | .ret e, n, hn => by
    intro d us hahead _ room
    simp only [Statement.tokens, List.length_append, List.length_cons] at hn
    obtain ⟨n, rfl⟩ : ∃ k, n = k + 1 := ⟨n - 1, by omega⟩
    simp only [Statement.tokens, List.cons_append, List.append_assoc, List.nil_append] at hahead
    rw [Statement.width_code, Statement.size] at room
    obtain ⟨d₁, h₁, s₁⟩ := (Stage.refl hahead).advance
    obtain ⟨d₂, h₂, s₂⟩ := ((unrolls slot e).writes (n := n) (by omega)).after s₁ endsSum_semicolon
      (by simp; omega)
    obtain ⟨d₃, h₃, s₃⟩ := s₂.emit (i := .ret)
      (by simp [Instruction.width, Instruction.operand]; omega)
    obtain ⟨d₄, h₄, s₄⟩ := s₃.expect
    refine ⟨d₄, ?_, s₄⟩
    rw [statement, token_bind, hahead.token]
    exact (bind_of_ok h₁).trans ((bind_of_ok h₂).trans ((bind_of_ok h₃).trans h₄))
  | .block b, n, hn => by
    intro d us hahead _ room
    simp only [Statement.tokens, inBraces, List.length_append, List.length_cons] at hn
    obtain ⟨n, rfl⟩ : ∃ k, n = k + 1 := ⟨n - 1, by omega⟩
    obtain ⟨d₁, h₁, s₁⟩ := (writes_block b (n := n) (by omega)).between rfl hahead trivial room
    refine ⟨d₁, ?_, s₁⟩
    rw [statement, token_bind, hahead.token]
    exact h₁
  | .skip, n, hn => by
    intro d us hahead _ _
    simp only [Statement.tokens, List.length_cons] at hn
    obtain ⟨n, rfl⟩ : ∃ k, n = k + 1 := ⟨n - 1, by omega⟩
    obtain ⟨d₁, h₁, s₁⟩ := (Stage.refl hahead).advance
    refine ⟨d₁, ?_, s₁⟩
    rw [statement, token_bind, hahead.token]
    exact h₁

theorem writes_block : (b : Block) → ∀ {n : Nat}, 3 * (b.tokens slot).length < n →
    Writes (statements bodyAddr n) (b.tokens slot) (b.code slot) (· = .punct .rbrace)
  | .nil, n, hn => by
    intro d us hahead hstop _
    obtain ⟨n, rfl⟩ : ∃ k, n = k + 1 := ⟨n - 1, by omega⟩
    refine ⟨d, ?_, .refl hahead⟩
    have ht : d.ahead.token = .punct .rbrace := hahead.token.trans hstop
    rw [statements, token_bind, if_pos ht]
    rfl
  | .cons s b, n, hn => by
    intro d us hahead hstop room
    obtain ⟨t, ts, hs, ht⟩ := tokens_statement slot s
    simp only [Block.tokens, List.length_append] at hn
    have hlen : 0 < (s.tokens slot).length := by rw [hs]; simp
    obtain ⟨n, rfl⟩ : ∃ k, n = k + 1 := ⟨n - 1, by omega⟩
    rw [Block.tokens, List.append_assoc] at hahead
    rw [Block.width_code, Block.size] at room
    obtain ⟨d₁, h₁, s₁⟩ := writes_statement s (n := n) (by omega) hahead trivial (by simp; omega)
    obtain ⟨d₂, h₂, s₂⟩ := (writes_block b (n := n) (by omega)).after s₁ hstop (by simp; omega)
    have hahead' : d.ahead.token ≠ .punct .rbrace := by
      rw [hahead.token, hs]
      exact ht
    rw [Statement.width_code] at s₂
    refine ⟨d₂, ?_, s₂⟩
    rw [statements, token_bind, if_neg hahead']
    exact (bind_of_ok h₁).trans h₂

end

variable {slot}

/-- The code of the function ends in an instruction that does nothing, at which it runs off. -/
theorem function_after {p : Program} {n : Nat} (hn : 3 * (p.body.tokens slot).length < n)
    {d d₁ : Draft} {js : List Instruction} {us : List Token}
    (s : d.Stage js (p.tokens slot ++ us) d₁)
    (room : d.size + width js + p.body.size + 1 ≤ d.capacity) :
    ∃ d₂, function (m := Drafting) bodyAddr n d₁ = .ok (slot p.param) d₂ ∧
      d.Stage (js ++ p.body.code slot (d.size + width js) ++ [.nop]) us d₂ := by
  simp only [Program.tokens, inParens, List.cons_append, List.nil_append] at s
  obtain ⟨d₂, h₂, s₂⟩ := s.name .functionName
  obtain ⟨d₃, h₃, s₃⟩ := s₂.expect
  obtain ⟨d₄, h₄, s₄⟩ := s₃.name .parameterName
  obtain ⟨d₅, h₅, s₅⟩ := s₄.expect
  obtain ⟨d₆, h₆, s₆⟩ := ((writes_block slot p.body hn).between rfl).after s₅ trivial
    (by simp; omega)
  obtain ⟨d₇, h₇, s₇⟩ := s₆.emit (i := .nop)
    (by simp [Instruction.width, Instruction.operand]; omega)
  refine ⟨d₇, ?_, s₇⟩
  exact (bind_of_ok h₂).trans ((bind_of_ok h₃).trans ((bind_of_ok h₄).trans ((bind_of_ok h₅).trans
    ((bind_of_ok h₆).trans (bind_of_ok h₇)))))

/-- A stream of the tokens of a tree is compiled to the code of the tree, if there is room for it. -/
theorem program_of_tree {p : Program} {n capacity : Nat} {stream : TokenStream} {pos : Position}
    (hending : stream.ending = .eof pos) (htokens : stream.tokens = p.tokens slot)
    (hn : 3 * (p.body.tokens slot).length < n) (room : width (p.code slot) ≤ capacity) :
    ∃ d, program (m := Drafting) n (.start stream capacity) = .ok (bodyAddr, slot p.param) d ∧
      d.code.toList = p.code slot := by
  rw [Program.width_code] at room
  have hstart : (Draft.start stream capacity).Ahead (.eof :: p.tokens slot ++ [.eof]) := by
    refine ⟨⟨pos, hending⟩, fun i => ?_⟩
    rw [← htokens]
    exact (getD_concat_eof _ i).symm
  obtain ⟨d₁, h₁, s₁⟩ := (Stage.refl hstart).advance
  obtain ⟨d₂, h₂, s₂⟩ := s₁.emit (i := .call bodyAddr)
    (show 0 + 2 ≤ capacity by omega)
  obtain ⟨d₃, h₃, s₃⟩ := s₂.emit (i := .stop) (show 0 + 3 ≤ capacity by omega)
  -- the function begins behind the two instructions that call it
  have hentry : here d₃ = .ok bodyAddr d₃ := congrArg (EStateM.Result.ok · d₃) s₃.size
  obtain ⟨d₄, h₄, s₄⟩ := function_after hn s₃ (show 0 + 3 + p.body.size + 1 ≤ capacity by omega)
  obtain ⟨d₅, h₅, s₅⟩ := s₄.expect
  refine ⟨d₅, ?_, s₅.code⟩
  have hopening : opening (m := Drafting) n d₁ = .ok (bodyAddr, slot p.param) d₄ :=
    (bind_of_ok h₂).trans ((bind_of_ok h₃).trans ((bind_of_ok hentry).trans (bind_of_ok h₄)))
  exact (bind_of_ok h₁).trans ((bind_of_ok hopening).trans (bind_of_ok h₅))

end Rules

/-- A source that is read as the tokens of a tree compiles to the code of the tree, if there is room
for it. -/
theorem compile_of_tree {slot : String → Nat} {source : String} {p : Program} {symbols : SymbolTable}
    (hlexes : (Scanner.ofSource source).Lexes (p.tokens slot) symbols) {capacity : Nat}
    (room : width (p.code slot) ≤ capacity) :
    compile source capacity = .ok ⟨p.code slot, bodyAddr, slot p.param, symbols⟩ := by
  obtain ⟨⟨pos, hending⟩, htokens, rfl⟩ := (TokenStream.ofSource_eof_iff source _ symbols).1 hlexes
  have hdepth : 3 * (p.body.tokens slot).length <
      4 * (TokenStream.ofSource source).lexemes.length + 8 := by
    have := congrArg List.length htokens
    simp only [TokenStream.tokens, Program.tokens, inParens, inBraces, List.length_map,
      List.length_append, List.length_cons] at this
    omega
  obtain ⟨d, hd, hcode⟩ := Rules.program_of_tree hending htokens hdepth room
  exact compile_eq_ok.2 ⟨bodyAddr, slot p.param, d, hd, by rw [hcode]⟩

end Solo
