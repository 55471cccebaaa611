import Solo.Proofs.Grammar

/-! Every derivation has a tree. A form is read as a set of token lists, in which a rule stands for
the lists that its trees are written in. These sets contain what the table of the grammar makes of
them, rule by rule, so they contain all that it derives. -/

namespace Solo.Grammar

variable (slot : String → Nat)

/-- A tree of the rule is written `ts`. -/
def Rule.Written : Rule → List Token → Prop
  | .program, ts | .function, ts => ∃ p : Program, p.tokens slot = ts
  | .block, ts => ∃ b : Block, inBraces (b.tokens slot) = ts
  | .statement, ts => ∃ s : Statement, s.tokens slot = ts
  | .condition, ts => ∃ c : Condition, c.tokens slot = ts
  | .expression, ts => ∃ e : Expression, e.tokens slot = ts
  | .term, ts => ∃ t : Term, t.tokens slot = ts
  | .factor, ts => ∃ f : Factor, f.tokens slot = ts

def Form.Written : Form → List Token → Prop
  | .number, ts => ∃ value, ts = [.number value]
  | .identifier, ts => ∃ name, ts = [.ident name (slot name)]
  | .token t, ts => ts = [t]
  | .rule r, ts => r.Written slot ts
  | .seq a b, ts => ∃ us vs, ts = us ++ vs ∧ a.Written us ∧ b.Written vs
  | .choice a b, ts => a.Written ts ∨ b.Written ts
  | .many a, ts => ∃ parts : List (List Token), ts = parts.flatten ∧ ∀ part ∈ parts, a.Written part

/-- Every name in `ts` has its slot. -/
def Slotted (ts : List Token) : Prop := ∀ name k, .ident name k ∈ ts → k = slot name

variable {slot}

theorem Slotted.append {ts us : List Token} (h : Slotted slot (ts ++ us)) :
    Slotted slot ts ∧ Slotted slot us :=
  ⟨fun name k hmem => h name k (List.mem_append_left _ hmem),
    fun name k hmem => h name k (List.mem_append_right _ hmem)⟩

theorem Form.written_sumOp {ts : List Token} (h : (punct .plus ||| punct .minus).Written slot ts) :
    ∃ op : SumOp, ts = [.punct op.punct] := by
  rcases h with rfl | rfl
  · exact ⟨.add, rfl⟩
  · exact ⟨.sub, rfl⟩

theorem Form.written_productOp {ts : List Token}
    (h : (punct .star ||| punct .slash).Written slot ts) : ∃ op : ProductOp, ts = [.punct op.punct] := by
  rcases h with rfl | rfl
  · exact ⟨.mul, rfl⟩
  · exact ⟨.div, rfl⟩

theorem Form.written_relation {ts : List Token} (h : relation.Written slot ts) :
    ∃ r : Relation, ts = [.punct r.punct] := by
  rcases h with ((rfl | rfl) | rfl) | rfl
  · exact ⟨.eq, rfl⟩
  · exact ⟨.ne, rfl⟩
  · exact ⟨.greater, rfl⟩
  · exact ⟨.less, rfl⟩

/-- Further summands go on top of what is there. -/
theorem Expression.extend (e : Expression) (parts : List (List Token))
    (h : ∀ part ∈ parts,
      ((Form.punct .plus ||| Form.punct .minus) ++ Form.rule .term).Written slot part) :
    ∃ e' : Expression, e'.tokens slot = e.tokens slot ++ parts.flatten := by
  induction parts generalizing e with
  | nil => exact ⟨e, by simp⟩
  | cons part parts ih =>
    obtain ⟨us, vs, rfl, hop, t, rfl⟩ := h part List.mem_cons_self
    obtain ⟨op, rfl⟩ := Form.written_sumOp hop
    obtain ⟨e', he⟩ := ih (.sum e op t) fun part hmem => h part (List.mem_cons_of_mem _ hmem)
    exact ⟨e', by simp [he, Expression.tokens]⟩

/-- Further factors go below what is there. -/
theorem Term.ofFactors (f : Factor) (parts : List (List Token))
    (h : ∀ part ∈ parts,
      ((Form.punct .star ||| Form.punct .slash) ++ Form.rule .factor).Written slot part) :
    ∃ t : Term, t.tokens slot = f.tokens slot ++ parts.flatten := by
  induction parts generalizing f with
  | nil => exact ⟨.factor f, by simp [Term.tokens]⟩
  | cons part parts ih =>
    obtain ⟨us, vs, rfl, hop, f', rfl⟩ := h part List.mem_cons_self
    obtain ⟨op, rfl⟩ := Form.written_productOp hop
    obtain ⟨t, ht⟩ := ih f' fun part hmem => h part (List.mem_cons_of_mem _ hmem)
    exact ⟨.product f op t, by simp [ht, Term.tokens]⟩

theorem Block.ofStatements (parts : List (List Token))
    (h : ∀ part ∈ parts, Rule.statement.Written slot part) :
    ∃ b : Block, b.tokens slot = parts.flatten := by
  induction parts with
  | nil => exact ⟨.nil, by simp [Block.tokens]⟩
  | cons part parts ih =>
    obtain ⟨s, rfl⟩ := h part List.mem_cons_self
    obtain ⟨b, hb⟩ := ih fun part hmem => h part (List.mem_cons_of_mem _ hmem)
    exact ⟨.cons s b, by simp [hb, Block.tokens]⟩

/-- Each rule's trees cover what its form makes of trees. -/
theorem Rule.written_of_form (r : Rule) {ts : List Token} (h : r.form.Written slot ts) :
    r.Written slot ts := by
  cases r with
  | program => exact h
  | function =>
    obtain ⟨_, _, rfl, ⟨_, _, rfl, ⟨_, _, rfl, ⟨_, _, rfl, ⟨name, rfl⟩, rfl⟩, param, rfl⟩, rfl⟩, body, rfl⟩ := h
    exact ⟨⟨name, param, body⟩, by simp [Program.tokens, inParens]⟩
  | block =>
    obtain ⟨_, _, rfl, ⟨_, _, rfl, rfl, parts, rfl, hparts⟩, rfl⟩ := h
    obtain ⟨b, hb⟩ := Block.ofStatements parts hparts
    exact ⟨b, by simp [inBraces, hb]⟩
  | statement =>
    rcases h with ((((h | h) | h) | h) | h) | h
    · obtain ⟨_, _, rfl, ⟨_, _, rfl, ⟨_, _, rfl, ⟨name, rfl⟩, rfl⟩, e, rfl⟩, rfl⟩ := h
      exact ⟨.assign name e, by simp [Statement.tokens]⟩
    · obtain ⟨_, _, rfl, ⟨_, _, rfl, ⟨_, _, rfl, ⟨_, _, rfl, rfl, c, rfl⟩, yes, rfl⟩, rfl⟩, no, rfl⟩ := h
      exact ⟨.ifElse c yes no, by simp [Statement.tokens]⟩
    · obtain ⟨_, _, rfl, ⟨_, _, rfl, rfl, c, rfl⟩, body, rfl⟩ := h
      exact ⟨.whileDo c body, by simp [Statement.tokens]⟩
    · obtain ⟨_, _, rfl, ⟨_, _, rfl, rfl, e, rfl⟩, rfl⟩ := h
      exact ⟨.ret e, by simp [Statement.tokens]⟩
    · obtain ⟨b, rfl⟩ := h
      exact ⟨.block b, by simp [Statement.tokens]⟩
    · exact ⟨.skip, by rw [Statement.tokens, h]⟩
  | condition =>
    obtain ⟨_, _, rfl, ⟨_, _, rfl, ⟨_, _, rfl, ⟨_, _, rfl, rfl, left, rfl⟩, hr⟩, right, rfl⟩, rfl⟩ := h
    obtain ⟨relation, rfl⟩ := Form.written_relation hr
    exact ⟨⟨left, relation, right⟩, by simp [Condition.tokens, inParens]⟩
  | expression =>
    obtain ⟨_, _, rfl, ⟨t, rfl⟩, parts, rfl, hparts⟩ := h
    obtain ⟨e, he⟩ := (Expression.term t).extend parts hparts
    exact ⟨e, by rw [he, Expression.tokens]⟩
  | term =>
    obtain ⟨_, _, rfl, ⟨f, rfl⟩, parts, rfl, hparts⟩ := h
    exact Term.ofFactors f parts hparts
  | factor =>
    rcases h with ((h | h) | h) | h
    · obtain ⟨value, rfl⟩ := h
      exact ⟨.number value, by simp [Factor.tokens]⟩
    · obtain ⟨name, rfl⟩ := h
      exact ⟨.name name, by simp [Factor.tokens]⟩
    · obtain ⟨_, _, rfl, ⟨_, _, rfl, rfl, e, rfl⟩, rfl⟩ := h
      exact ⟨.group e, by simp [Factor.tokens, inParens]⟩
    · obtain ⟨_, _, rfl, ⟨_, _, rfl, ⟨_, _, rfl, ⟨name, rfl⟩, rfl⟩, e, rfl⟩, rfl⟩ := h
      exact ⟨.call name e, by simp [Factor.tokens, inParens]⟩

theorem Form.Derives.written {f : Form} {ts : List Token} (h : f.Derives ts) :
    Slotted slot ts → f.Written slot ts := by
  induction h with
  | number value => exact fun _ => ⟨value, rfl⟩
  | identifier name k =>
    intro hs
    exact ⟨name, by rw [hs name k List.mem_cons_self]⟩
  | token t => exact fun _ => rfl
  | rule _ ih => exact fun hs => Rule.written_of_form _ (ih hs)
  | seq _ _ iha ihb => exact fun hs => ⟨_, _, rfl, iha hs.append.1, ihb hs.append.2⟩
  | left _ ih => exact fun hs => Or.inl (ih hs)
  | right _ ih => exact fun hs => Or.inr (ih hs)
  | stop => exact fun _ => ⟨[], rfl, fun _ hmem => absurd hmem List.not_mem_nil⟩
  | again _ _ iha ihb =>
    intro hs
    obtain ⟨parts, rfl, hparts⟩ := ihb hs.append.2
    refine ⟨_ :: parts, rfl, fun part hmem => ?_⟩
    rcases List.mem_cons.1 hmem with rfl | hmem
    · exact iha hs.append.1
    · exact hparts part hmem

/-- The sentences of the grammar are what its table derives, when every name has its slot. -/
theorem sentence_of_derives {ts : List Token} (h : (Form.rule .program).Derives ts)
    (hs : Slotted slot ts) : Sentence slot ts :=
  h.written hs

end Solo.Grammar
