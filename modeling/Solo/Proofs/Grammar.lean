import Solo.Grammar.Tokens

/-! The grammar as a table of forms, with repetition and choice, and what it derives. The token
lists derived from a rule are those in which the trees of that rule are written, although trees
group products to the right and sums to the left while the table only repeats. -/

namespace Solo.Grammar

inductive Rule where
  | program
  | function
  | block
  | statement
  | condition
  | expression
  | term
  | factor
  deriving DecidableEq, Repr

inductive Form where
  | number
  | identifier
  | token (t : Token)
  | rule (r : Rule)
  | seq (first second : Form)
  | choice (first second : Form)
  | many (part : Form)
  deriving DecidableEq, Repr

namespace Form

instance : Append Form := ⟨.seq⟩

instance : OrOp Form := ⟨.choice⟩

def punct (p : Punct) : Form := .token (.punct p)

def keyword (k : Keyword) : Form := .token (.keyword k)

def relation : Form := punct .eq ||| punct .ne ||| punct .greater ||| punct .less

end Form

open Form in
/-- What each rule stands for. -/
def Rule.form : Rule → Form
  | .program => rule .function
  | .function => identifier ++ punct .lparen ++ identifier ++ punct .rparen ++ rule .block
  | .block => punct .lbrace ++ many (rule .statement) ++ punct .rbrace
  | .statement =>
    (identifier ++ punct .assign ++ rule .expression ++ punct .semicolon) |||
    (keyword .ifK ++ rule .condition ++ rule .statement ++ keyword .elseK ++ rule .statement) |||
    (keyword .whileK ++ rule .condition ++ rule .statement) |||
    (keyword .returnK ++ rule .expression ++ punct .semicolon) |||
    rule .block |||
    punct .semicolon
  | .condition =>
    punct .lparen ++ rule .expression ++ relation ++ rule .expression ++ punct .rparen
  | .expression => rule .term ++ many ((punct .plus ||| punct .minus) ++ rule .term)
  | .term => rule .factor ++ many ((punct .star ||| punct .slash) ++ rule .factor)
  | .factor =>
    number ||| identifier ||| (punct .lparen ++ rule .expression ++ punct .rparen) |||
    (identifier ++ punct .lparen ++ rule .expression ++ punct .rparen)

/-- The token lists that a form derives. -/
inductive Form.Derives : Form → List Token → Prop where
  | number (value : Word) : Derives .number [.number value]
  | identifier (name : String) (slot : Nat) : Derives .identifier [.ident name slot]
  | token (t : Token) : Derives (.token t) [t]
  | rule {r : Rule} {ts : List Token} (h : Derives r.form ts) : Derives (.rule r) ts
  | seq {a b : Form} {ts us : List Token} (first : Derives a ts) (second : Derives b us) :
      Derives (a ++ b) (ts ++ us)
  | left {a b : Form} {ts : List Token} (h : Derives a ts) : Derives (a ||| b) ts
  | right {a b : Form} {ts : List Token} (h : Derives b ts) : Derives (a ||| b) ts
  | stop {a : Form} : Derives (.many a) []
  | again {a : Form} {ts us : List Token} (first : Derives a ts) (more : Derives (.many a) us) :
      Derives (.many a) (ts ++ us)

namespace Form.Derives

theorem append {a : Form} {ts us : List Token} (h : (Form.many a).Derives ts)
    (hus : (Form.many a).Derives us) : (Form.many a).Derives (ts ++ us) := by
  generalize he : Form.many a = f at h
  induction h with
  | stop => cases he; exact hus
  | again first _ _ ih =>
    cases he
    rw [List.append_assoc]
    exact again first (ih rfl)
  | _ => cases he

theorem concat {a : Form} {ts us : List Token} (h : (Form.many a).Derives ts) (hus : a.Derives us) :
    (Form.many a).Derives (ts ++ us) := by
  simpa using h.append (again hus stop)

theorem seq_inv {a b : Form} {ts : List Token} (h : (a ++ b).Derives ts) :
    ∃ us vs, ts = us ++ vs ∧ a.Derives us ∧ b.Derives vs := by
  cases h with
  | seq first second => exact ⟨_, _, rfl, first, second⟩

theorem sumOp (op : SumOp) : (Form.punct .plus ||| Form.punct .minus).Derives [.punct op.punct] := by
  cases op
  · exact .left (.token _)
  · exact .right (.token _)

theorem productOp (op : ProductOp) :
    (Form.punct .star ||| Form.punct .slash).Derives [.punct op.punct] := by
  cases op
  · exact .left (.token _)
  · exact .right (.token _)

theorem rule_inv {r : Rule} {ts : List Token} (h : (Form.rule r).Derives ts) : r.form.Derives ts := by
  cases h with
  | rule h => exact h

/-- If what may be repeated is itself made of repeated parts, so are its repetitions. -/
theorem flatten {a b : Form} {ts : List Token} (h : (Form.many a).Derives ts)
    (hab : ∀ {us}, a.Derives us → (Form.many b).Derives us) : (Form.many b).Derives ts := by
  generalize he : Form.many a = f at h
  induction h with
  | stop => exact stop
  | again first _ _ ih =>
    cases he
    exact append (hab first) (ih rfl)
  | _ => cases he

/-- A whole term behind an operator is made of what may be repeated behind a factor. -/
theorem operand {ts : List Token}
    (h : ((Form.punct .star ||| Form.punct .slash) ++ Form.rule .term).Derives ts) :
    (Form.many ((.punct .star ||| .punct .slash) ++ .rule .factor)).Derives ts := by
  obtain ⟨us, _, rfl, hop, hterm⟩ := h.seq_inv
  obtain ⟨fs, vs, rfl, hfactor, hmore⟩ := hterm.rule_inv.seq_inv
  rw [← List.append_assoc]
  exact again (seq hop hfactor) hmore

/-- A term may be put behind a factor, which is how products group to the right. -/
theorem product {fs ts : List Token} {op : ProductOp} (hf : (Form.rule .factor).Derives fs)
    (ht : (Form.rule .term).Derives ts) : (Form.rule .term).Derives (fs ++ .punct op.punct :: ts) :=
  .rule (seq hf (operand (seq (productOp op) ht)))

/-- A term may be put behind an expression, which is how sums group to the left. -/
theorem sum {es ts : List Token} {op : SumOp} (he : (Form.rule .expression).Derives es)
    (ht : (Form.rule .term).Derives ts) :
    (Form.rule .expression).Derives (es ++ .punct op.punct :: ts) := by
  obtain ⟨us, vs, rfl, hus, hvs⟩ := he.rule_inv.seq_inv
  have := seq hus (concat hvs (seq (sumOp op) ht))
  rw [List.singleton_append, ← List.append_assoc] at this
  exact .rule this

theorem ofTerm {ts : List Token} (h : (Form.rule .term).Derives ts) :
    (Form.rule .expression).Derives ts := by
  have := seq h (stop (a := (Form.punct .plus ||| Form.punct .minus) ++ .rule .term))
  rw [List.append_nil] at this
  exact .rule this

theorem ofFactor {ts : List Token} (h : (Form.rule .factor).Derives ts) :
    (Form.rule .term).Derives ts := by
  have := seq h (stop (a := (Form.punct .star ||| Form.punct .slash) ++ .rule .factor))
  rw [List.append_nil] at this
  exact .rule this

theorem relation (r : Relation) : Form.relation.Derives [.punct r.punct] := by
  cases r
  · exact .left (.left (.left (.token _)))
  · exact .left (.left (.right (.token _)))
  · exact .left (.right (.token _))
  · exact .right (.token _)

theorem parens {a : Form} {ts : List Token} (h : a.Derives ts) :
    (Form.punct .lparen ++ a ++ Form.punct .rparen).Derives (inParens ts) :=
  seq (seq (.token _) h) (.token _)

theorem call {name : String} {slot : Nat} {ts : List Token} (h : (Form.rule .expression).Derives ts) :
    (Form.rule .factor).Derives (.ident name slot :: inParens ts) :=
  .rule (.right (seq (seq (seq (.identifier name slot) (.token _)) h) (.token _)))

theorem condition {ls rs : List Token} {r : Relation} (hl : (Form.rule .expression).Derives ls)
    (hr : (Form.rule .expression).Derives rs) :
    (Form.rule .condition).Derives (inParens (ls ++ .punct r.punct :: rs)) := by
  have := seq (seq (seq (seq (.token (.punct .lparen)) hl) (relation r)) hr) (.token (.punct .rparen))
  refine .rule ?_
  simpa [inParens, Rule.form, Form.punct] using this

theorem block {ts : List Token} (h : (Form.many (.rule .statement)).Derives ts) :
    (Form.rule .block).Derives (inBraces ts) :=
  .rule (seq (seq (.token _) h) (.token _))

theorem assign {name : String} {slot : Nat} {ts : List Token}
    (h : (Form.rule .expression).Derives ts) :
    (Form.rule .statement).Derives
      (.ident name slot :: .punct .assign :: ts ++ [.punct .semicolon]) :=
  .rule (.left (.left (.left (.left (.left
    (seq (seq (seq (.identifier name slot) (.token _)) h) (.token _)))))))

theorem ifElse {cs ys ns : List Token} (hc : (Form.rule .condition).Derives cs)
    (hy : (Form.rule .statement).Derives ys) (hn : (Form.rule .statement).Derives ns) :
    (Form.rule .statement).Derives (.keyword .ifK :: cs ++ ys ++ .keyword .elseK :: ns) := by
  have := seq (seq (seq (seq (.token (.keyword .ifK)) hc) hy) (.token (.keyword .elseK))) hn
  refine .rule (.left (.left (.left (.left (.right ?_)))))
  simpa [Form.keyword] using this

theorem whileDo {cs bs : List Token} (hc : (Form.rule .condition).Derives cs)
    (hb : (Form.rule .statement).Derives bs) :
    (Form.rule .statement).Derives (.keyword .whileK :: cs ++ bs) :=
  .rule (.left (.left (.left (.right (seq (seq (.token _) hc) hb)))))

theorem ret {ts : List Token} (h : (Form.rule .expression).Derives ts) :
    (Form.rule .statement).Derives (.keyword .returnK :: ts ++ [.punct .semicolon]) :=
  .rule (.left (.left (.right (seq (seq (.token _) h) (.token _)))))

theorem program {name param : String} {nameSlot paramSlot : Nat} {ts : List Token}
    (h : (Form.many (.rule .statement)).Derives ts) :
    (Form.rule .program).Derives
      (.ident name nameSlot :: inParens [.ident param paramSlot] ++ inBraces ts) :=
  .rule (.rule (seq (seq (seq (seq (.identifier name nameSlot) (.token _))
    (.identifier param paramSlot)) (.token _)) (block h)))

end Form.Derives

variable {slot : String → Nat}

mutual

theorem Expression.derives : ∀ e : Expression, (Form.rule .expression).Derives (e.tokens slot)
  | .term t => .ofTerm t.derives
  | .sum e _ t => .sum e.derives t.derives

theorem Term.derives : ∀ t : Term, (Form.rule .term).Derives (t.tokens slot)
  | .factor f => .ofFactor f.derives
  | .product f _ t => .product f.derives t.derives

theorem Factor.derives : ∀ f : Factor, (Form.rule .factor).Derives (f.tokens slot)
  | .number value => .rule (.left (.left (.left (.number value))))
  | .name x => .rule (.left (.left (.right (.identifier x (slot x)))))
  | .group e => .rule (.left (.right (.parens e.derives)))
  | .call _ arg => .call arg.derives

end

mutual

theorem Statement.derives : ∀ s : Statement, (Form.rule .statement).Derives (s.tokens slot)
  | .assign _ e => .assign e.derives
  | .ifElse c yes no => .ifElse (.condition c.left.derives c.right.derives) yes.derives no.derives
  | .whileDo c body => .whileDo (.condition c.left.derives c.right.derives) body.derives
  | .ret e => .ret e.derives
  | .block b => .rule (.left (.right (.block b.derives)))
  | .skip => .rule (.right (.token _))

theorem Block.derives : ∀ b : Block, (Form.many (.rule .statement)).Derives (b.tokens slot)
  | .nil => .stop
  | .cons s b => .again s.derives b.derives

end

theorem Program.derives (p : Program) : (Form.rule .program).Derives (p.tokens slot) :=
  .program p.body.derives

end Solo.Grammar
