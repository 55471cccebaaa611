import Solo.Proofs.Drafting
import Solo.Proofs.Grammar

/-! What the compiler's rules move past is derived by the grammar. The induction is on the depth
that a rule is given. -/

namespace Solo

open Draft Grammar

/-- Whatever the rule moves past without failing, the form derives. -/
def Accepts {α : Type} (rule : Drafting α) (f : Form) : Prop :=
  ∀ ⦃d a d'⦄, rule d = .ok a d' → ∃ ts, d.Reads ts d' ∧ f.Derives ts

namespace Rules

theorem derives_additive {t : Token} {op : Arith} (h : additive? t = some op) :
    (Form.punct .plus ||| Form.punct .minus).Derives [t] := by
  unfold additive? at h
  split at h
  · exact .left (.token _)
  · exact .right (.token _)
  · cases h

theorem derives_multiplicative {t : Token} {op : Arith} (h : multiplicative? t = some op) :
    (Form.punct .star ||| Form.punct .slash).Derives [t] := by
  unfold multiplicative? at h
  split at h
  · exact .left (.token _)
  · exact .right (.token _)
  · cases h

theorem reads_relation {t : Token} {test : Comparison} (h : negated? t = some test) :
    ∃ r : Relation, t = .punct r.punct := by
  unfold negated? at h
  split at h
  · exact ⟨.eq, rfl⟩
  · exact ⟨.ne, rfl⟩
  · exact ⟨.greater, rfl⟩
  · exact ⟨.less, rfl⟩
  · cases h

theorem reads_parens {inner : Drafting Unit} {f : Form} (hinner : Accepts inner f) {d d' : Draft}
    (h : parens inner d = .ok () d') : ∃ ts, d.Reads (inParens ts) d' ∧ f.Derives ts := by
  obtain ⟨_, d₁, h₁, h⟩ := bind_eq_ok.1 h
  obtain ⟨_, d₂, h₂, h₃⟩ := bind_eq_ok.1 h
  obtain ⟨ts, hts, hf⟩ := hinner h₂
  exact ⟨ts, ((reads_expect h₁).trans hts).trans (reads_expect h₃), hf⟩

theorem reads_braces {inner : Drafting Unit} {f : Form} (hinner : Accepts inner f) {d d' : Draft}
    (h : braces inner d = .ok () d') : ∃ ts, d.Reads (inBraces ts) d' ∧ f.Derives ts := by
  obtain ⟨_, d₁, h₁, h⟩ := bind_eq_ok.1 h
  obtain ⟨_, d₂, h₂, h₃⟩ := bind_eq_ok.1 h
  obtain ⟨ts, hts, hf⟩ := hinner h₂
  exact ⟨ts, ((reads_expect h₁).trans hts).trans (reads_expect h₃), hf⟩

/-- What the rules of expressions accept when they are given depth `n`. -/
structure ExpressionsAccept (entry n : Nat) : Prop where
  expression : Accepts (expression entry n) (.rule .expression)
  term : Accepts (term entry n) (.rule .term)
  operations : ∀ {op? : Token → Option Arith} {f : Form}, (∀ {t op}, op? t = some op → f.Derives [t]) →
    Accepts (operations op? entry n) (.many (f ++ .rule .term))
  factor : Accepts (factor entry n) (.rule .factor)

theorem accepts_expression_succ {entry n : Nat} (ih : ExpressionsAccept entry n) :
    Accepts (expression entry (n + 1)) (.rule .expression) := by
  intro d _ d' h
  rw [expression] at h
  obtain ⟨_, d₁, h₁, h₂⟩ := bind_eq_ok.1 h
  obtain ⟨ts, hts, ht⟩ := ih.term h₁
  obtain ⟨us, hus, hu⟩ := ih.operations derives_additive h₂
  exact ⟨ts ++ us, hts.trans hus, .rule (.seq ht hu)⟩

theorem accepts_term_succ {entry n : Nat} (ih : ExpressionsAccept entry n) :
    Accepts (term entry (n + 1)) (.rule .term) := by
  intro d _ d' h
  rw [term] at h
  obtain ⟨_, d₁, h₁, h₂⟩ := bind_eq_ok.1 h
  obtain ⟨ts, hts, hfactor⟩ := ih.factor h₁
  obtain ⟨us, hus, hmore⟩ := ih.operations derives_multiplicative h₂
  exact ⟨ts ++ us, hts.trans hus, .rule (.seq hfactor (hmore.flatten .operand))⟩

theorem accepts_operations_succ {entry n : Nat} (ih : ExpressionsAccept entry n)
    {op? : Token → Option Arith} {f : Form} (hop? : ∀ {t op}, op? t = some op → f.Derives [t]) :
    Accepts (operations op? entry (n + 1)) (.many (f ++ .rule .term)) := by
  intro d _ d' h
  rw [operations, token_bind] at h
  cases hop : op? d.ahead.token with
  | none =>
    rw [hop] at h
    obtain ⟨-, rfl⟩ := pure_eq_ok.1 h
    exact ⟨[], .of_eq rfl rfl, .stop⟩
  | some op =>
    rw [hop] at h
    obtain ⟨_, d₁, h₁, h⟩ := bind_eq_ok.1 h
    obtain ⟨_, d₂, h₂, h⟩ := bind_eq_ok.1 h
    obtain ⟨_, d₃, h₃, h₄⟩ := bind_eq_ok.1 h
    obtain ⟨ts, hts, hterm⟩ := ih.term h₂
    obtain ⟨us, hus, hmore⟩ := ih.operations hop? h₄
    exact ⟨_, (((reads_advance h₁).trans hts).writing (reads_emit h₃)).trans hus,
      .again (.seq (hop? hop) hterm) hmore⟩

theorem accepts_factor_succ {entry n : Nat} (ih : ExpressionsAccept entry n) :
    Accepts (factor entry (n + 1)) (.rule .factor) := by
  intro d _ d' h
  rw [factor, token_bind] at h
  have advanced {d₁ : Draft} (hadv : advance d = .ok () d₁) := reads_advance hadv
  cases ht : d.ahead.token with
  | number value =>
    rw [ht] at h
    obtain ⟨_, d₁, h₁, h₂⟩ := bind_eq_ok.1 h
    have hread := (reads_emit h₁).trans (reads_advance h₂)
    obtain ⟨-, rfl⟩ := emit_eq_ok.1 h₁
    rw [ht] at hread
    exact ⟨_, hread, .rule (.left (.left (.left (.number value))))⟩
  | ident x k =>
    rw [ht] at h advanced
    obtain ⟨_, d₁, h₁, h⟩ := bind_eq_ok.1 h
    rw [token_bind] at h
    split at h
    · obtain ⟨_, d₂, h₂, h₃⟩ := bind_eq_ok.1 h
      obtain ⟨ts, hts, he⟩ := reads_parens ih.expression h₂
      exact ⟨_, ((advanced h₁).trans hts).writing (reads_emit h₃), .call he⟩
    · exact ⟨_, (advanced h₁).writing (reads_emit h), .rule (.left (.left (.right (.identifier x k))))⟩
  | punct p =>
    rw [ht] at h
    cases p with
    | lparen =>
      obtain ⟨ts, hts, he⟩ := reads_parens ih.expression h
      exact ⟨_, hts, .rule (.left (.right (.parens he)))⟩
    | _ => exact absurd h reject_ne_ok
  | _ =>
    rw [ht] at h
    exact absurd h reject_ne_ok

theorem expressions_accept (entry n : Nat) : ExpressionsAccept entry n := by
  induction n with
  | zero =>
    -- a rule without depth refuses every token
    refine ⟨fun d a d' h => ?_, fun d a d' h => ?_, fun _ d a d' h => ?_, fun d a d' h => ?_⟩
    · rw [expression] at h; exact absurd h reject_ne_ok
    · rw [term] at h; exact absurd h reject_ne_ok
    · rw [operations] at h; exact absurd h reject_ne_ok
    · rw [factor] at h; exact absurd h reject_ne_ok
  | succ n ih =>
    exact ⟨accepts_expression_succ ih, accepts_term_succ ih, accepts_operations_succ ih,
      accepts_factor_succ ih⟩

theorem accepts_condition (entry n : Nat) : Accepts (condition entry n) (.rule .condition) := by
  intro d index d' h
  have ih := expressions_accept entry n
  obtain ⟨_, d₁, h₁, h⟩ := bind_eq_ok.1 h
  obtain ⟨_, d₂, h₂, h⟩ := bind_eq_ok.1 h
  rw [token_bind] at h
  cases hop : negated? d₂.ahead.token with
  | none =>
    rw [hop] at h
    exact absurd h reject_ne_ok
  | some test =>
    rw [hop] at h
    obtain ⟨_, d₃, h₃, h⟩ := bind_eq_ok.1 h
    obtain ⟨_, d₄, h₄, h⟩ := bind_eq_ok.1 h
    obtain ⟨_, d₅, h₅, h₆⟩ := bind_eq_ok.1 h
    obtain ⟨ls, hls, hleft⟩ := ih.expression h₂
    obtain ⟨rs, hrs, hright⟩ := ih.expression h₄
    obtain ⟨r, hr⟩ := reads_relation hop
    have hread := ((reads_expect h₁).trans (hls.trans ((reads_advance h₃).trans hrs))).trans
      ((reads_expect h₅).writing (reads_emitJump h₆))
    rw [hr] at hread
    exact ⟨_, hread, .condition hleft hright⟩

/-- What the rules of statements accept when they are given depth `n`. -/
structure StatementsAccept (entry n : Nat) : Prop where
  statement : Accepts (statement entry n) (.rule .statement)
  statements : Accepts (statements entry n) (.many (.rule .statement))

theorem accepts_statement_succ {entry n : Nat} (ih : StatementsAccept entry n) :
    Accepts (statement entry (n + 1)) (.rule .statement) := by
  intro d _ d' h
  rw [statement, token_bind] at h
  have advanced {d₁ : Draft} (hadv : advance d = .ok () d₁) := reads_advance hadv
  have hexpr := (expressions_accept entry n).expression
  have hcond := accepts_condition entry n
  cases ht : d.ahead.token with
  | ident x k =>
    rw [ht] at h advanced
    obtain ⟨_, d₁, h₁, h⟩ := bind_eq_ok.1 h
    obtain ⟨_, d₂, h₂, h⟩ := bind_eq_ok.1 h
    obtain ⟨_, d₃, h₃, h⟩ := bind_eq_ok.1 h
    obtain ⟨_, d₄, h₄, h₅⟩ := bind_eq_ok.1 h
    obtain ⟨ts, hts, he⟩ := hexpr h₃
    exact ⟨_, ((advanced h₁).trans ((reads_expect h₂).trans (hts.writing (reads_emit h₄)))).trans
      (reads_expect h₅), .assign he⟩
  | keyword kw =>
    rw [ht] at h advanced
    cases kw with
    | ifK =>
      obtain ⟨_, d₁, h₁, h⟩ := bind_eq_ok.1 h
      obtain ⟨skipThen, d₂, h₂, h⟩ := bind_eq_ok.1 h
      obtain ⟨_, d₃, h₃, h⟩ := bind_eq_ok.1 h
      obtain ⟨skipElse, d₄, h₄, h⟩ := bind_eq_ok.1 h
      obtain ⟨_, d₅, h₅, h⟩ := bind_eq_ok.1 h
      obtain ⟨_, d₆, h₆, h⟩ := bind_eq_ok.1 h
      obtain ⟨_, d₇, h₇, h₈⟩ := bind_eq_ok.1 h
      obtain ⟨cs, hcs, hc⟩ := hcond h₂
      obtain ⟨ys, hys, hy⟩ := ih.statement h₃
      obtain ⟨ns, hns, hn⟩ := ih.statement h₇
      have hyes := (((advanced h₁).trans hcs).trans hys).writing (reads_emitJump h₄)
      have hno := ((reads_expect h₅).writing (reads_patch h₆)).trans (hns.writing (reads_patch h₈))
      exact ⟨_, hyes.trans hno, .ifElse hc hy hn⟩
    | whileK =>
      obtain ⟨_, d₁, h₁, h⟩ := bind_eq_ok.1 h
      obtain ⟨top, _, h₂, h⟩ := bind_eq_ok.1 h
      cases h₂
      obtain ⟨exit, d₃, h₃, h⟩ := bind_eq_ok.1 h
      obtain ⟨_, d₄, h₄, h⟩ := bind_eq_ok.1 h
      obtain ⟨_, d₅, h₅, h₆⟩ := bind_eq_ok.1 h
      obtain ⟨cs, hcs, hc⟩ := hcond h₃
      obtain ⟨bs, hbs, hb⟩ := ih.statement h₄
      exact ⟨_, ((advanced h₁).trans hcs).trans
        ((hbs.writing (reads_emit h₅)).writing (reads_patch h₆)), .whileDo hc hb⟩
    | returnK =>
      obtain ⟨_, d₁, h₁, h⟩ := bind_eq_ok.1 h
      obtain ⟨_, d₂, h₂, h⟩ := bind_eq_ok.1 h
      obtain ⟨_, d₃, h₃, h₄⟩ := bind_eq_ok.1 h
      obtain ⟨ts, hts, he⟩ := hexpr h₂
      exact ⟨_, ((advanced h₁).trans (hts.writing (reads_emit h₃))).trans (reads_expect h₄),
        .ret he⟩
    | elseK => exact absurd h reject_ne_ok
  | punct p =>
    rw [ht] at h advanced
    cases p with
    | lbrace =>
      obtain ⟨ts, hts, hb⟩ := reads_braces ih.statements h
      exact ⟨_, hts, .rule (.left (.right (.block hb)))⟩
    | semicolon => exact ⟨_, advanced h, .rule (.right (.token _))⟩
    | _ => exact absurd h reject_ne_ok
  | _ =>
    rw [ht] at h
    exact absurd h reject_ne_ok

theorem accepts_statements_succ {entry n : Nat} (ih : StatementsAccept entry n) :
    Accepts (statements entry (n + 1)) (.many (.rule .statement)) := by
  intro d _ d' h
  rw [statements, token_bind] at h
  split at h
  · obtain ⟨-, rfl⟩ := pure_eq_ok.1 h
    exact ⟨[], .of_eq rfl rfl, .stop⟩
  · obtain ⟨_, d₁, h₁, h₂⟩ := bind_eq_ok.1 h
    obtain ⟨ts, hts, hs⟩ := ih.statement h₁
    obtain ⟨us, hus, hmore⟩ := ih.statements h₂
    exact ⟨ts ++ us, hts.trans hus, .again hs hmore⟩

theorem statements_accept (entry n : Nat) : StatementsAccept entry n := by
  induction n with
  | zero =>
    refine ⟨?_, ?_⟩ <;> intro d a d' h
    · rw [statement] at h; exact absurd h reject_ne_ok
    · rw [statements] at h; exact absurd h reject_ne_ok
  | succ n ih => exact ⟨accepts_statement_succ ih, accepts_statements_succ ih⟩

theorem accepts_function (entry n : Nat) : Accepts (function entry n) (.rule .program) := by
  intro d _ d' h
  obtain ⟨_, d₁, h₁, h⟩ := bind_eq_ok.1 h
  obtain ⟨_, d₂, h₂, h⟩ := bind_eq_ok.1 h
  obtain ⟨_, d₃, h₃, h⟩ := bind_eq_ok.1 h
  obtain ⟨_, d₄, h₄, h⟩ := bind_eq_ok.1 h
  obtain ⟨_, d₅, h₅, h⟩ := bind_eq_ok.1 h
  obtain ⟨_, d₆, h₆, h⟩ := bind_eq_ok.1 h
  obtain ⟨-, rfl⟩ := pure_eq_ok.1 h
  obtain ⟨name, hname⟩ := reads_name h₁
  obtain ⟨param, hparam⟩ := reads_name h₃
  obtain ⟨ts, hts, hb⟩ := reads_braces (statements_accept entry n).statements h₅
  exact ⟨_, (hname.trans ((reads_expect h₂).trans (hparam.trans (reads_expect h₄)))).trans
    (hts.writing (reads_emit h₆)), .program hb⟩

theorem accepts_opening (n : Nat) : Accepts (opening n) (.rule .program) := by
  intro d _ d' h
  obtain ⟨_, d₁, h₁, h⟩ := bind_eq_ok.1 h
  obtain ⟨_, d₂, h₂, h⟩ := bind_eq_ok.1 h
  obtain ⟨entry, _, hentry, h⟩ := bind_eq_ok.1 h
  cases hentry
  obtain ⟨_, d₃, h₃, h⟩ := bind_eq_ok.1 h
  obtain ⟨-, rfl⟩ := pure_eq_ok.1 h
  obtain ⟨ts, hts, hfunction⟩ := accepts_function _ n h₃
  exact ⟨ts, ((reads_emit h₁).trans (reads_emit h₂)).trans hts, hfunction⟩

end Rules

end Solo
