import Solo.Proofs.Progress

/-! What the compiler's rules fail at. An error names the token that is looked at, or what stands
behind the last one; the tokens moved past before it, with any token put behind them that the error
asks for, begin something that the grammar derives. -/

namespace Solo

open Draft Grammar

namespace Grammar

/-- Something that the form derives begins with `us`. -/
def Form.Begins (f : Form) (us : List Token) : Prop := ∃ vs, f.Derives (us ++ vs)

theorem Rule.exists_derives (r : Rule) : ∃ ts, (Form.rule r).Derives ts := by
  have hfactor : (Form.rule .factor).Derives [.number 0] := .rule (.left (.left (.left (.number 0))))
  have hexpr := Form.Derives.ofTerm (.ofFactor hfactor)
  have hprogram : (Form.rule .program).Derives
      (.ident "f" 0 :: inParens [.ident "n" 1] ++ inBraces []) := .program .stop
  cases r with
  | program => exact ⟨_, hprogram⟩
  | function => exact ⟨_, hprogram.rule_inv⟩
  | block => exact ⟨_, .block .stop⟩
  | statement => exact ⟨_, .rule (.right (.token _))⟩
  | condition => exact ⟨_, .condition (r := .eq) hexpr hexpr⟩
  | expression => exact ⟨_, hexpr⟩
  | term => exact ⟨_, .ofFactor hfactor⟩
  | factor => exact ⟨_, hfactor⟩

theorem Form.exists_derives : (f : Form) → ∃ ts, f.Derives ts
  | .number => ⟨_, .number 0⟩
  | .identifier => ⟨_, .identifier "n" 0⟩
  | .token t => ⟨_, .token t⟩
  | .rule r => r.exists_derives
  | .seq a b => by
    obtain ⟨ts, hts⟩ := a.exists_derives
    obtain ⟨us, hus⟩ := b.exists_derives
    exact ⟨_, .seq hts hus⟩
  | .choice a _ => by
    obtain ⟨ts, hts⟩ := a.exists_derives
    exact ⟨_, .left hts⟩
  | .many _ => ⟨_, .stop⟩

variable {a b c : Form} {ts us vs : List Token} {t : Token}

theorem Form.Derives.assoc (h : (a ++ (b ++ c)).Derives ts) : (a ++ b ++ c).Derives ts := by
  obtain ⟨us, _, rfl, hus, hrest⟩ := h.seq_inv
  obtain ⟨vs, ws, rfl, hvs, hws⟩ := hrest.seq_inv
  rw [← List.append_assoc]
  exact .seq (.seq hus hvs) hws

namespace Form.Begins

theorem mono (h : a.Begins us) (hab : ∀ {ts}, a.Derives ts → b.Derives ts) : b.Begins us := by
  obtain ⟨vs, hvs⟩ := h
  exact ⟨vs, hab hvs⟩

theorem left (h : a.Begins us) (b : Form) : (a ++ b).Begins us := by
  obtain ⟨vs, hvs⟩ := h
  obtain ⟨ws, hws⟩ := b.exists_derives
  exact ⟨vs ++ ws, by rw [← List.append_assoc]; exact .seq hvs hws⟩

theorem right (ha : a.Derives us) (hb : b.Begins vs) : (a ++ b).Begins (us ++ vs) := by
  obtain ⟨ws, hws⟩ := hb
  exact ⟨ws, by rw [List.append_assoc]; exact .seq ha hws⟩

/-- What begins a sequence begins its first part, if that is never empty. -/
theorem first (h : (a ++ b).Begins [t]) (ha : a.solid = true) : a.Begins [t] := by
  obtain ⟨ws, hws⟩ := h
  obtain ⟨us, vs, heq, hus, -⟩ := hws.seq_inv
  obtain ⟨u, us, rfl⟩ := List.exists_cons_of_ne_nil (hus.ne_nil ha)
  obtain ⟨rfl, -⟩ := List.cons.inj heq
  exact ⟨us, hus⟩

theorem term (h : (Form.rule .expression).Begins [t]) : (Form.rule .term).Begins [t] :=
  (h.mono Form.Derives.rule_inv).first rfl

theorem factor (h : (Form.rule .expression).Begins [t]) : (Form.rule .factor).Begins [t] :=
  (h.term.mono Form.Derives.rule_inv).first rfl

end Form.Begins

end Grammar

/-- What is expected where a token does not fit. -/
def Expected.form : Expected → Form
  | .token t => .token t
  | .functionName | .parameterName => .identifier
  | .statement => .rule .statement
  | .relationalOperator => .relation
  | .expression => .rule .expression

namespace Draft

/-- The error is about the token that `d` looks at, or about what stands behind the last token. -/
def Meets (d : Draft) : CompileError → Prop
  | .misplaced pos _ found => d.ahead = ⟨pos, found⟩
  | .lexical pos error => d.rest = [] ∧ d.ending = .stuck pos error
  | .codeOverflow _ => False

/-- With `t` in the place of the token that `d` looks at there would not be this error, or not yet. -/
def Wants (d : Draft) : CompileError → Token → Prop
  | .misplaced _ expected _, t => expected.form.Begins [t]
  | .lexical _ _, t => t = d.ahead.token
  | .codeOverflow _, _ => False

end Draft

/-- If `x` fails at `d`, there was no room, or it fails at a token behind those with which something
that the form derives begins. -/
structure BlamesAt {α : Type} (x : Drafting α) (f : Form) (d : Draft) : Prop where
  fails : ∀ {error d'}, x d = .error error d' → (∃ c, error = .codeOverflow c) ∨
    d'.Meets error ∧ ∃ us, d.Reads us d' ∧ ∀ t, d'.Wants error t → f.Begins (us ++ [t])

/-- `x` fails only for lack of room. -/
def Silent {α : Type} (x : Drafting α) : Prop :=
  ∀ ⦃d error d'⦄, x d = .error error d' → ∃ c, error = .codeOverflow c

namespace Silent

theorem pure {α : Type} (a : α) : Silent (Pure.pure a : Drafting α) :=
  fun _ _ _ h => by cases h

theorem here : Silent Draft.here := fun _ _ _ h => by cases h

theorem patch (index : Nat) : Silent (Draft.patch index) := fun _ _ _ h => by cases h

theorem emit (i : Instruction) : Silent (Draft.emit i) := by
  intro d error d' h
  unfold Draft.emit at h
  split at h
  · cases h
  · cases h
    exact ⟨_, rfl⟩

theorem bind {α β : Type} {x : Drafting α} {g : α → Drafting β} (hx : Silent x)
    (hg : ∀ a, Silent (g a)) : Silent (x >>= g) := by
  intro d error d' h
  rcases bind_eq_error.1 h with h₁ | ⟨a, d₁, -, h₂⟩
  · exact hx h₁
  · exact hg a h₂

theorem emitJump (i : Instruction) : Silent (Draft.emitJump i) := by
  intro d error d' h
  exact ((emit i).bind fun _ => pure d.code.size) h

end Silent

namespace BlamesAt

variable {α β : Type} {x : Drafting α} {g : α → Drafting β} {f h : Form} {d : Draft}

theorem of_silent (hx : Silent x) : BlamesAt x f d := ⟨fun he => .inl (hx he)⟩

theorem mono (hx : BlamesAt x h d) (hsub : ∀ {ts}, h.Derives ts → f.Derives ts) : BlamesAt x f d := by
  refine ⟨fun {error d'} he => ?_⟩
  rcases hx.fails he with hover | ⟨hmeets, us, hus, hwants⟩
  · exact .inl hover
  · exact .inr ⟨hmeets, us, hus, fun t ht => (hwants t ht).mono hsub⟩

theorem bind (hacc : ∀ {a d'}, x d = .ok a d' → ∃ ts, d.Reads ts d' ∧ f.Derives ts)
    (hx : BlamesAt x f d) (hg : ∀ {a d'}, x d = .ok a d' → BlamesAt (g a) h d') :
    BlamesAt (x >>= g) (f ++ h) d := by
  refine ⟨fun {error d'} he => ?_⟩
  rcases bind_eq_error.1 he with h₁ | ⟨a, d₁, h₁, h₂⟩
  · rcases hx.fails h₁ with hover | ⟨hmeets, us, hus, hwants⟩
    · exact .inl hover
    · exact .inr ⟨hmeets, us, hus, fun t ht => (hwants t ht).left h⟩
  · rcases (hg h₁).fails h₂ with hover | ⟨hmeets, us, hus, hwants⟩
    · exact .inl hover
    · obtain ⟨ts, hts, hf⟩ := hacc h₁
      refine .inr ⟨hmeets, ts ++ us, hts.trans hus, fun t ht => ?_⟩
      rw [List.append_assoc]
      exact .right hf (hwants t ht)

theorem bind_silent (hx : BlamesAt x f d) (hg : ∀ a, Silent (g a)) : BlamesAt (x >>= g) f d := by
  refine ⟨fun {error d'} he => ?_⟩
  rcases bind_eq_error.1 he with h₁ | ⟨a, d₁, -, h₂⟩
  · exact hx.fails h₁
  · exact .inl (hg a h₂)

/-- Writing comes first and reads nothing. -/
theorem writing_bind (hx : Silent x) (hreads : ∀ {a d'}, x d = .ok a d' → d.Reads [] d')
    (hg : ∀ {a d'}, x d = .ok a d' → BlamesAt (g a) f d') : BlamesAt (x >>= g) f d := by
  refine ⟨fun {error d'} he => ?_⟩
  rcases bind_eq_error.1 he with h₁ | ⟨a, d₁, h₁, h₂⟩
  · exact .inl (hx h₁)
  · rcases (hg h₁).fails h₂ with hover | ⟨hmeets, us, hus, hwants⟩
    · exact .inl hover
    · exact .inr ⟨hmeets, us, (hreads h₁).trans hus, hwants⟩

theorem token_bind {g : Token → Drafting β} (hg : BlamesAt (g d.ahead.token) f d) :
    BlamesAt (Toolkit.token >>= g) f d := by
  refine ⟨fun {error d'} he => ?_⟩
  rw [Draft.token_bind] at he
  exact hg.fails he

theorem reject {expected : Expected} (hf : ∀ t, expected.form.Begins [t] → f.Begins [t]) :
    BlamesAt (Draft.reject expected : Drafting α) f d := by
  refine ⟨fun {error d'} he => ?_⟩
  cases he
  exact .inr ⟨rfl, [], .of_eq rfl rfl, hf⟩

theorem advance (hf : f.Derives [d.ahead.token]) : BlamesAt Draft.advance f d := by
  refine ⟨fun {error d'} he => ?_⟩
  unfold Draft.advance at he
  split at he
  · cases he
  · cases he
  · next hrest hending =>
    cases he
    refine .inr ⟨⟨hrest, hending⟩, [], .of_eq rfl rfl, fun t ht => ?_⟩
    cases ht
    exact ⟨[], hf⟩

theorem advance_bind {g : Drafting β} (hf : f.Derives [d.ahead.token])
    (hg : ∀ {d'}, BlamesAt g h d') : BlamesAt (Draft.advance >>= fun _ => g) (f ++ h) d :=
  bind (fun h₁ => ⟨_, reads_advance h₁, hf⟩) (advance hf) fun _ => hg

theorem expect (t : Token) : BlamesAt (Draft.expect t) (.token t) d := by
  refine token_bind ?_
  split
  · next ht => exact advance (ht ▸ .token _)
  · exact reject fun _ => id

theorem expect_bind {t : Token} {g : Drafting β} (hg : ∀ {d'}, BlamesAt g h d') :
    BlamesAt (Draft.expect t >>= fun _ => g) (.token t ++ h) d :=
  bind (fun h₁ => ⟨_, reads_expect h₁, .token t⟩) (expect t) fun _ => hg

theorem name_bind {expected : Expected} {g : Nat → Drafting β} (he : expected.form = .identifier)
    (hg : ∀ {k d'}, BlamesAt (g k) h d') :
    BlamesAt (Draft.name expected >>= g) (.identifier ++ h) d := by
  refine bind (fun h₁ => ?_) (token_bind ?_) fun _ => hg
  · obtain ⟨x, hx⟩ := reads_name h₁
    exact ⟨_, hx, .identifier x _⟩
  · cases ht : d.ahead.token with
    | ident x k =>
      have hf : Form.identifier.Derives [d.ahead.token] := ht ▸ .identifier x k
      exact (advance hf).bind_silent fun _ => .pure _
    | _ => exact reject fun _ h => he ▸ h

/-- A rule followed by what is to be read behind it. -/
theorem rule_bind {r : Rule} (hacc : Accepts x (.rule r)) (hx : BlamesAt x (.rule r) d)
    (hg : ∀ {a d'}, BlamesAt (g a) h d') : BlamesAt (x >>= g) (.rule r ++ h) d :=
  bind (fun h₁ => hacc h₁) hx fun _ => hg

theorem between {inner : Drafting Unit} {l r : Token} (hacc : Accepts inner f)
    (hinner : ∀ {d'}, BlamesAt inner f d') :
    BlamesAt (do Draft.expect l; inner; Draft.expect r) (.token l ++ (f ++ .token r)) d :=
  expect_bind (bind (fun h => hacc h) hinner fun _ => expect r)

end BlamesAt

namespace Rules

/-- What the rules of expressions fail at when they are given depth `n`. No operator is looked for
without depth, since no term or factor has been read without it. -/
structure ExpressionsBlame (entry n : Nat) : Prop where
  expression : ∀ {d}, BlamesAt (expression entry n) (.rule .expression) d
  term : ∀ {d}, BlamesAt (term entry n) (.rule .term) d
  operations : 0 < n → ∀ {op? : Token → Option Arith} {f : Form},
    (∀ {t op}, op? t = some op → f.Derives [t]) →
    ∀ {d}, BlamesAt (operations op? entry n) (.many (f ++ .rule .term)) d
  factor : ∀ {d}, BlamesAt (factor entry n) (.rule .factor) d

/-- A rule that succeeds has been given depth, if without it the rule refuses its token. -/
theorem depth_pos {rule : Nat → Drafting Unit} {expected : Expected} (hzero : rule 0 = reject expected)
    {n : Nat} {d d' : Draft} (h : rule n d = .ok () d') : 0 < n := by
  cases n with
  | zero => rw [hzero] at h; exact absurd h reject_ne_ok
  | succ n => exact Nat.succ_pos n

theorem term_zero (entry : Nat) : term entry 0 = reject .expression := by rw [term]; rfl

theorem factor_zero (entry : Nat) : factor entry 0 = reject .expression := by rw [factor]; rfl

theorem blames_expression_succ {entry n : Nat} (ih : ExpressionsBlame entry n) {d : Draft} :
    BlamesAt (expression entry (n + 1)) (.rule .expression) d := by
  rw [expression]
  exact (BlamesAt.bind (fun h => (expressions_accept entry n).term h) ih.term
    fun h => ih.operations (depth_pos (term_zero entry) h) derives_additive).mono fun h => .rule h

theorem blames_term_succ {entry n : Nat} (ih : ExpressionsBlame entry n) {d : Draft} :
    BlamesAt (term entry (n + 1)) (.rule .term) d := by
  rw [term]
  refine (BlamesAt.bind (fun h => (expressions_accept entry n).factor h) ih.factor
    fun h => ih.operations (depth_pos (factor_zero entry) h) derives_multiplicative).mono fun h => ?_
  obtain ⟨us, vs, rfl, hfactor, hmore⟩ := h.seq_inv
  exact .rule (.seq hfactor (hmore.flatten .operand))

theorem blames_operations_succ {entry n : Nat} (ih : ExpressionsBlame entry n)
    {op? : Token → Option Arith} {f : Form} (hop? : ∀ {t op}, op? t = some op → f.Derives [t])
    {d : Draft} : BlamesAt (operations op? entry (n + 1)) (.many (f ++ .rule .term)) d := by
  rw [operations]
  refine .token_bind ?_
  cases hop : op? d.ahead.token with
  | none => exact .of_silent (.pure _)
  | some op =>
    refine (BlamesAt.advance_bind (hop? hop) (.bind (fun h => (expressions_accept entry n).term h) ih.term
      fun h => .writing_bind (.emit _) reads_emit fun _ =>
        ih.operations (depth_pos (term_zero entry) h) hop?)).mono fun h => ?_
    obtain ⟨us, vs, rfl, hfirst, hmore⟩ := h.assoc.seq_inv
    exact .again hfirst hmore

theorem blames_factor_succ {entry n : Nat} (ih : ExpressionsBlame entry n) {d : Draft} :
    BlamesAt (factor entry (n + 1)) (.rule .factor) d := by
  rw [factor]
  refine .token_bind ?_
  have hparens {d'} : BlamesAt (parens (expression entry n)) _ d' :=
    .between (expressions_accept entry n).expression ih.expression
  cases ht : d.ahead.token with
  | number value =>
    refine .writing_bind (.emit _) reads_emit fun {_ d₁} h₁ => .advance ?_
    obtain ⟨-, rfl⟩ := emit_eq_ok.1 h₁
    exact .rule (.left (.left (.left (ht ▸ .number value))))
  | ident x k =>
    have hident : Form.identifier.Derives [d.ahead.token] := ht ▸ .identifier x k
    refine (BlamesAt.advance_bind hident (.token_bind ?_)).mono fun h => .rule (.right h.assoc.assoc)
    split
    · exact hparens.bind_silent fun _ => .emit _
    · exact .of_silent (.emit _)
  | punct p =>
    cases p with
    | lparen => exact hparens.mono fun h => .rule (.left (.right h.assoc))
    | _ => exact .reject fun _ h => h.factor
  | _ => exact .reject fun _ h => h.factor

theorem expressions_blame (entry n : Nat) : ExpressionsBlame entry n := by
  induction n with
  | zero =>
    refine ⟨fun {d} => ?_, fun {d} => ?_, fun h => absurd h (Nat.lt_irrefl 0), fun {d} => ?_⟩
    · rw [expression]; exact .reject fun _ h => h
    · rw [term]; exact .reject fun _ h => h.term
    · rw [factor]; exact .reject fun _ h => h.factor
  | succ n ih =>
    exact ⟨blames_expression_succ ih, blames_term_succ ih, fun _ => blames_operations_succ ih,
      blames_factor_succ ih⟩

theorem blames_condition (entry n : Nat) {d : Draft} :
    BlamesAt (condition entry n) (.rule .condition) d := by
  have hacc := (expressions_accept entry n).expression
  have hexpr {d} := (expressions_blame entry n).expression (d := d)
  refine (BlamesAt.expect_bind (.rule_bind hacc hexpr fun {_ d₂} => .token_bind ?_)).mono
    fun h => .rule h.assoc.assoc.assoc
  cases hop : negated? d₂.ahead.token with
  | none => exact .reject fun _ h => h.left _
  | some test =>
    obtain ⟨r, hr⟩ := reads_relation hop
    have hrelation : Form.relation.Derives [d₂.ahead.token] := hr ▸ .relation r
    exact .advance_bind hrelation (.rule_bind hacc hexpr
      ((BlamesAt.expect _).bind_silent fun _ => .emitJump _))

/-- What the rules of statements fail at when they are given depth `n`. -/
structure StatementsBlame (entry n : Nat) : Prop where
  statement : ∀ {d}, BlamesAt (statement entry n) (.rule .statement) d
  statements : ∀ {d}, BlamesAt (statements entry n) (.many (.rule .statement)) d

theorem blames_statement_succ {entry n : Nat} (ih : StatementsBlame entry n) {d : Draft} :
    BlamesAt (statement entry (n + 1)) (.rule .statement) d := by
  rw [statement]
  refine .token_bind ?_
  have hexpr {d} := (expressions_blame entry n).expression (d := d)
  have haccExpr := (expressions_accept entry n).expression
  have hcond {d} := blames_condition entry n (d := d)
  have haccCond := accepts_condition entry n
  have hacc := statements_accept entry n
  cases ht : d.ahead.token with
  | ident x k =>
    have hident : Form.identifier.Derives [d.ahead.token] := ht ▸ .identifier x k
    refine (BlamesAt.advance_bind hident (.expect_bind (.rule_bind haccExpr hexpr
      (.writing_bind (.emit _) reads_emit fun _ => .expect _)))).mono fun h => ?_
    exact .rule (.left (.left (.left (.left (.left h.assoc.assoc)))))
  | keyword kw =>
    have hkeyword : (Form.keyword kw).Derives [d.ahead.token] := ht ▸ .token _
    cases kw with
    | ifK =>
      refine (BlamesAt.advance_bind hkeyword (.rule_bind haccCond hcond (.rule_bind hacc.statement
        ih.statement (.writing_bind (.emitJump _) reads_emitJump fun _ => .expect_bind
        (.writing_bind (.patch _) reads_patch fun _ =>
          ih.statement.bind_silent fun _ => .patch _))))).mono fun h => ?_
      exact .rule (.left (.left (.left (.left (.right h.assoc.assoc.assoc)))))
    | whileK =>
      refine (BlamesAt.advance_bind hkeyword (.writing_bind .here (fun h => ?_) fun _ => .rule_bind
        haccCond hcond (ih.statement.bind_silent fun _ => (Silent.emit _).bind fun _ =>
          .patch _))).mono fun h => ?_
      · cases h
        exact .of_eq rfl rfl
      · exact .rule (.left (.left (.left (.right h.assoc))))
    | returnK =>
      refine (BlamesAt.advance_bind hkeyword (.rule_bind haccExpr hexpr
        (.writing_bind (.emit _) reads_emit fun _ => .expect _))).mono fun h => ?_
      exact .rule (.left (.left (.right h.assoc)))
    | elseK => exact .reject fun _ h => h
  | punct p =>
    cases p with
    | lbrace =>
      exact (BlamesAt.between hacc.statements ih.statements).mono
        fun h => .rule (.left (.right (.rule h.assoc)))
    | semicolon => exact .advance (.rule (.right (ht ▸ .token _)))
    | _ => exact .reject fun _ h => h
  | _ => exact .reject fun _ h => h

theorem blames_statements_succ {entry n : Nat} (ih : StatementsBlame entry n) {d : Draft} :
    BlamesAt (statements entry (n + 1)) (.many (.rule .statement)) d := by
  rw [statements]
  refine .token_bind ?_
  split
  · exact .of_silent (.pure _)
  · refine (BlamesAt.rule_bind (statements_accept entry n).statement ih.statement ih.statements).mono
      fun h => ?_
    obtain ⟨us, vs, rfl, hfirst, hmore⟩ := h.seq_inv
    exact .again hfirst hmore

theorem statements_blame (entry n : Nat) : StatementsBlame entry n := by
  induction n with
  | zero =>
    refine ⟨fun {d} => ?_, fun {d} => ?_⟩
    · rw [statement]; exact .reject fun _ h => h
    · rw [statements]
      refine .reject fun t h => h.mono fun {ts} hts => ?_
      rw [← List.append_nil ts]
      exact .again hts .stop
  | succ n ih => exact ⟨blames_statement_succ ih, blames_statements_succ ih⟩

theorem blames_function (entry n : Nat) {d : Draft} : BlamesAt (function entry n) (.rule .program) d := by
  have hblock {d} : BlamesAt (braces (statements entry n)) (.rule .block) d :=
    (BlamesAt.between (statements_accept entry n).statements (statements_blame entry n).statements).mono
      fun h => .rule h.assoc
  exact (BlamesAt.name_bind rfl (.expect_bind (.name_bind rfl (.expect_bind
    (hblock.bind_silent fun _ => (Silent.emit _).bind fun _ => .pure _))))).mono
      fun h => .rule (.rule h.assoc.assoc.assoc)

theorem blames_opening (n : Nat) {d : Draft} : BlamesAt (opening n) (.rule .program) d := by
  refine .writing_bind (.emit _) reads_emit fun _ => .writing_bind (.emit _) reads_emit fun _ =>
    .writing_bind .here (fun h => ?_) fun _ => (blames_function _ n).bind_silent fun _ => .pure _
  cases h
  exact .of_eq rfl rfl

theorem blames_begun (n : Nat) {d : Draft} :
    BlamesAt (begun n) (.rule .program ++ .token .eof) d :=
  .rule_bind (accepts_opening n) (blames_opening n) ((BlamesAt.expect _).bind_silent fun _ => .pure _)

end Rules

end Solo
