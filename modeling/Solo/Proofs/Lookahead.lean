import Solo.Proofs.Progress

/-! What a rule does depends only on the tokens up to the one that it looks at last. Two drafts that
have written the same and show the same tokens are led through the same steps, as long as no step
looks further. The second may be given more room and more depth. -/

namespace Solo

open Grammar

/-- The end of file that is read behind the last token. -/
def TokenStream.Ending.lexeme? : TokenStream.Ending → Option Lexeme
  | .eof pos => some ⟨pos, .eof⟩
  | .stuck _ _ => none

namespace Draft

/-- The `i`-th token behind the one looked at, if reading gets there. -/
def peek (d : Draft) (i : Nat) : Option Lexeme := (d.ahead :: d.rest)[i]?.or d.ending.lexeme?

variable {d d' e : Draft}

theorem advance_eq_ok : advance d = .ok () d' ↔
    ∃ l, d.peek 1 = some l ∧ d' = { d with ahead := l, rest := d.rest.tail } := by
  obtain ⟨ahead, rest, ending, capacity, code, size, trace⟩ := d
  cases rest with
  | cons l rest => simp [advance, peek, eq_comm]
  | nil => cases ending <;> simp [advance, peek, TokenStream.Ending.lexeme?, eq_comm]

/-- `d'` is `j` tokens further than `d`. -/
structure FurtherBy (j : Nat) (d d' : Draft) : Prop where
  ahead : d.peek j = some d'.ahead
  rest : d'.rest = d.rest.drop j
  ending : d'.ending = d.ending

theorem FurtherBy.peek {j : Nat} (h : FurtherBy j d d') (i : Nat) : d'.peek i = d.peek (i + j) := by
  cases i with
  | zero => rw [Nat.zero_add, h.ahead]; rfl
  | succ i =>
    have hindex : i + 1 + j = j + i + 1 := by omega
    simp [Draft.peek, h.rest, h.ending, hindex]

theorem FurtherBy.refl (h : d'.ahead = d.ahead) (hrest : d'.rest = d.rest)
    (hending : d'.ending = d.ending) : FurtherBy 0 d d' := ⟨congrArg some h.symm, hrest, hending⟩

theorem FurtherBy.trans {i j : Nat} {d₁ : Draft} (h : FurtherBy i d d₁) (h' : FurtherBy j d₁ d') :
    FurtherBy (j + i) d d' where
  ahead := by rw [← h.peek, h'.ahead]
  rest := by rw [h'.rest, h.rest, List.drop_drop, Nat.add_comm]
  ending := h'.ending.trans h.ending

theorem furtherBy_advance (h : advance d = .ok () d') : FurtherBy 1 d d' := by
  obtain ⟨l, hl, rfl⟩ := advance_eq_ok.1 h
  exact ⟨hl, List.drop_one.symm, rfl⟩

/-- `d` and `e` show the same token, and `k` more of them, and have written the same; `e` has at least
as much room. -/
structure AgreeUpTo (k : Nat) (d e : Draft) : Prop where
  peek : ∀ i ≤ k, ∃ l, d.peek i = some l ∧ e.peek i = some l
  code : e.code = d.code
  size : e.size = d.size
  capacity : d.capacity ≤ e.capacity

theorem AgreeUpTo.ahead {k : Nat} (h : AgreeUpTo k d e) : e.ahead = d.ahead := by
  obtain ⟨l, hd, he⟩ := h.peek 0 (Nat.zero_le k)
  exact (Option.some.inj he).trans (Option.some.inj hd).symm

end Draft

open Draft

/-- What `x` does at `d` is what `y` does at a draft that agrees with `d` as far as `x` looks. -/
structure MirrorsAt {α : Type} (x y : Drafting α) (d : Draft) : Prop where
  ok : ∀ {a d'}, x d = .ok a d' → ∃ j, FurtherBy j d d' ∧
    ∀ {k e}, AgreeUpTo (k + j) d e → ∃ e', y e = .ok a e' ∧ AgreeUpTo k d' e'
  misplaced : ∀ {pos expected t d'}, x d = .error (.misplaced pos expected t) d' → ∃ j, FurtherBy j d d' ∧
    ∀ {k e}, AgreeUpTo (k + j) d e → ∃ e', y e = .error (.misplaced pos expected t) e'

namespace MirrorsAt

variable {α β : Type} {x y : Drafting α} {f g : α → Drafting β} {d : Draft}

theorem bind (hx : MirrorsAt x y d) (hf : ∀ {a d'}, x d = .ok a d' → MirrorsAt (f a) (g a) d') :
    MirrorsAt (x >>= f) (y >>= g) d := by
  refine ⟨fun h => ?_, fun h => ?_⟩
  · obtain ⟨a, d₁, h₁, h₂⟩ := bind_eq_ok.1 h
    obtain ⟨i, hi, hagree⟩ := hx.ok h₁
    obtain ⟨j, hj, hagree'⟩ := (hf h₁).ok h₂
    refine ⟨j + i, hi.trans hj, fun {k e} he => ?_⟩
    rw [← Nat.add_assoc] at he
    obtain ⟨e₁, hy, he₁⟩ := hagree he
    obtain ⟨e₂, hg, he₂⟩ := hagree' he₁
    exact ⟨e₂, (bind_of_ok hy).trans hg, he₂⟩
  · rcases bind_eq_error.1 h with h₁ | ⟨a, d₁, h₁, h₂⟩
    · obtain ⟨j, hj, hagree⟩ := hx.misplaced h₁
      refine ⟨j, hj, fun he => ?_⟩
      obtain ⟨e₁, hy⟩ := hagree he
      exact ⟨e₁, bind_of_error hy⟩
    · obtain ⟨i, hi, hagree⟩ := hx.ok h₁
      obtain ⟨j, hj, hagree'⟩ := (hf h₁).misplaced h₂
      refine ⟨j + i, hi.trans hj, fun {k e} he => ?_⟩
      rw [← Nat.add_assoc] at he
      obtain ⟨e₁, hy, he₁⟩ := hagree he
      obtain ⟨e₂, hg⟩ := hagree' he₁
      exact ⟨e₂, (bind_of_ok hy).trans hg⟩

/-- An action that only writes. -/
theorem of_writing (hok : ∀ {a d'}, x d = .ok a d' → FurtherBy 0 d d' ∧
      ∀ {k e}, AgreeUpTo k d e → ∃ e', x e = .ok a e' ∧ AgreeUpTo k d' e')
    (herror : ∀ {pos expected t d'}, x d ≠ .error (.misplaced pos expected t) d') : MirrorsAt x x d where
  ok h := ⟨0, hok h⟩
  misplaced h := absurd h herror

theorem pure (a : α) : MirrorsAt (Pure.pure a) (Pure.pure a) d :=
  of_writing (fun h => by cases h; exact ⟨.refl rfl rfl rfl, fun he => ⟨_, rfl, he⟩⟩) nofun

theorem here : MirrorsAt Draft.here Draft.here d := by
  refine of_writing (fun h => ?_) nofun
  cases h
  exact ⟨.refl rfl rfl rfl, fun {k e} he => ⟨e, by rw [Draft.here, he.size], he⟩⟩

theorem patch (index : Nat) : MirrorsAt (Draft.patch index) (Draft.patch index) d := by
  refine of_writing (fun h => ?_) nofun
  cases h
  exact ⟨.refl rfl rfl rfl, fun {k e} he => ⟨_, rfl, he.peek, by simp only [he.code, he.size], he.size,
    he.capacity⟩⟩

theorem emit (i : Instruction) : MirrorsAt (Draft.emit i) (Draft.emit i) d := by
  refine of_writing (fun h => ?_) fun h => ?_
  · obtain ⟨hroom, rfl⟩ := emit_eq_ok.1 h
    refine ⟨.refl rfl rfl rfl, fun {k e} he => ⟨_, emit_eq_ok.2 ⟨?_, rfl⟩, he.peek, ?_, ?_, he.capacity⟩⟩
    · rw [he.size]
      exact Nat.le_trans hroom he.capacity
    · simp only [he.code]
    · simp only [he.size]
  · unfold Draft.emit at h
    split at h <;> cases h

theorem reject (expected : Expected) :
    MirrorsAt (Draft.reject expected : Drafting α) (Draft.reject expected) d where
  ok h := absurd h reject_ne_ok
  misplaced h := by
    cases h
    exact ⟨0, .refl rfl rfl rfl, fun {k e} he => ⟨e, by rw [Draft.reject, he.ahead]⟩⟩

theorem token_bind {f g : Token → Drafting β} (h : MirrorsAt (f d.ahead.token) (g d.ahead.token) d) :
    MirrorsAt (Draft.token >>= f) (Draft.token >>= g) d := by
  have htoken : MirrorsAt Draft.token Draft.token d := by
    refine of_writing (fun h => ?_) nofun
    cases h
    exact ⟨.refl rfl rfl rfl, fun {k e} he => ⟨e, by rw [Draft.token, he.ahead], he⟩⟩
  refine htoken.bind fun h' => ?_
  cases h'
  exact h

theorem emitJump (i : Instruction) : MirrorsAt (Draft.emitJump i) (Draft.emitJump i) d := by
  have hemit : MirrorsAt (Draft.emit i >>= fun _ => Pure.pure d.code.size)
    (Draft.emit i >>= fun _ => Pure.pure d.code.size) d := (emit i).bind fun _ => pure _
  -- the index is read off the code, which agrees
  have hindex {k e} (he : AgreeUpTo k d e) : Draft.emitJump i e =
      (Draft.emit i >>= fun _ => Pure.pure d.code.size) e := by
    rw [← he.code]
    rfl
  refine ⟨fun h => ?_, fun h => ?_⟩
  · obtain ⟨j, hj, hagree⟩ := hemit.ok h
    exact ⟨j, hj, fun he => hindex he ▸ hagree he⟩
  · obtain ⟨j, hj, hagree⟩ := hemit.misplaced h
    exact ⟨j, hj, fun he => hindex he ▸ hagree he⟩

theorem advance : MirrorsAt Draft.advance Draft.advance d where
  ok {_ d'} h := by
    refine ⟨1, furtherBy_advance h, fun {k e} he => ?_⟩
    obtain ⟨l, hl, rfl⟩ := advance_eq_ok.1 h
    obtain ⟨l', hd, hl'⟩ := he.peek 1 (Nat.le_add_left 1 k)
    obtain rfl : l = l' := Option.some.inj (hl.symm.trans hd)
    have hadvance := advance_eq_ok.2 ⟨l, hl', rfl⟩
    refine ⟨_, hadvance, fun i hi => ?_, he.code, he.size, he.capacity⟩
    rw [(furtherBy_advance h).peek i, (furtherBy_advance hadvance).peek i]
    exact he.peek (i + 1) (Nat.succ_le_succ hi)
  misplaced h := by
    unfold Draft.advance at h
    split at h <;> cases h

theorem expect (t : Token) : MirrorsAt (Draft.expect t) (Draft.expect t) d := by
  refine token_bind ?_
  split
  · exact advance
  · exact reject _

theorem name (expected : Expected) : MirrorsAt (Draft.name expected) (Draft.name expected) d := by
  refine token_bind ?_
  split
  · exact advance.bind fun _ => pure _
  · exact reject _

theorem between {inner inner' : Drafting Unit} {l r : Token} (hl : l ≠ .eof)
    (h : ∀ {d'}, d'.left < d.left → MirrorsAt inner inner' d') :
    MirrorsAt (do Draft.expect l; inner; Draft.expect r) (do Draft.expect l; inner'; Draft.expect r) d :=
  (expect l).bind fun h₁ => (h (left_expect h₁ hl)).bind fun _ => expect r

end MirrorsAt

namespace Rules

/-- With depth `n`, which is enough for the tokens that are left, the rules of expressions do what they
do with depth `m`. -/
structure ExpressionsMirror (entry n m : Nat) : Prop where
  expression : ∀ {d}, 3 * d.left + 3 ≤ n → MirrorsAt (expression entry n) (expression entry m) d
  term : ∀ {d}, 3 * d.left + 2 ≤ n → MirrorsAt (term entry n) (term entry m) d
  operations : ∀ {op?}, Punctual op? → ∀ {d}, 3 * d.left + 1 ≤ n →
    MirrorsAt (operations op? entry n) (operations op? entry m) d
  factor : ∀ {d}, 3 * d.left + 1 ≤ n → MirrorsAt (factor entry n) (factor entry m) d

section

variable {entry n m : Nat} (ih : ExpressionsMirror entry n m) {d : Draft}

include ih

theorem expression_mirrors_succ (hd : 3 * d.left + 3 ≤ n + 1) :
    MirrorsAt (expression entry (n + 1)) (expression entry (m + 1)) d := by
  rw [expression, expression]
  refine (ih.term (by omega)).bind fun h₁ => ih.operations punctual_additive ?_
  have hlt := (expressions_accept entry n).term.left_lt h₁
  omega

theorem term_mirrors_succ (hd : 3 * d.left + 2 ≤ n + 1) :
    MirrorsAt (term entry (n + 1)) (term entry (m + 1)) d := by
  rw [term, term]
  refine (ih.factor (by omega)).bind fun h₁ => ih.operations punctual_multiplicative ?_
  have hlt := (expressions_accept entry n).factor.left_lt h₁
  omega

theorem operations_mirrors_succ {op? : Token → Option Arith} (hop? : Punctual op?)
    (hd : 3 * d.left + 1 ≤ n + 1) :
    MirrorsAt (operations op? entry (n + 1)) (operations op? entry (m + 1)) d := by
  rw [operations, operations]
  refine .token_bind ?_
  cases hop : op? d.ahead.token with
  | none => exact .pure _
  | some op =>
    refine MirrorsAt.advance.bind fun h₁ => ?_
    have hlt := left_advance h₁ (hop?.ne_eof hop)
    refine (ih.term (by omega)).bind fun h₂ => ?_
    have hlt' := (expressions_accept entry n).term.left_lt h₂
    refine (MirrorsAt.emit _).bind fun h₃ => ih.operations hop? ?_
    rw [left_writing (reads_emit h₃)]
    omega

theorem factor_mirrors_succ (hd : 3 * d.left + 1 ≤ n + 1) :
    MirrorsAt (factor entry (n + 1)) (factor entry (m + 1)) d := by
  rw [factor, factor]
  refine .token_bind ?_
  have hparens {d'} (hle : d'.left ≤ d.left) :
      MirrorsAt (parens (expression entry n)) (parens (expression entry m)) d' :=
    .between nofun fun hlt => ih.expression (by omega)
  cases ht : d.ahead.token with
  | number value => exact (MirrorsAt.emit _).bind fun _ => .advance
  | ident x k =>
    refine MirrorsAt.advance.bind fun {_ d₁} h₁ => .token_bind ?_
    have hlt := left_advance h₁ (by rw [ht]; nofun)
    split
    · exact (hparens (by omega)).bind fun _ => .emit _
    · exact .emit _
  | punct p =>
    cases p with
    | lparen => exact hparens (Nat.le_refl _)
    | _ => exact .reject _
  | _ => exact .reject _

end

theorem expressions_mirror {entry n m : Nat} (hnm : n ≤ m) : ExpressionsMirror entry n m := by
  induction n generalizing m with
  | zero =>
    -- without depth there is never enough of it
    refine ⟨?_, ?_, fun _ => ?_, ?_⟩ <;> intro d hd <;> omega
  | succ n ih =>
    obtain ⟨m, rfl⟩ : ∃ k, m = k + 1 := ⟨m - 1, by omega⟩
    have ih := ih (Nat.le_of_succ_le_succ hnm)
    exact ⟨expression_mirrors_succ ih, term_mirrors_succ ih, fun h => operations_mirrors_succ ih h,
      factor_mirrors_succ ih⟩

theorem condition_mirrors {entry n m : Nat} (hnm : n ≤ m) {d : Draft} (hd : 3 * d.left ≤ n) :
    MirrorsAt (condition entry n) (condition entry m) d := by
  have hexpr {d'} (hlt : d'.left < d.left) : MirrorsAt (expression entry n) (expression entry m) d' :=
    (expressions_mirror hnm).expression (by omega)
  refine (MirrorsAt.expect _).bind fun h₁ => ?_
  have hlt₁ := left_expect h₁ nofun
  refine (hexpr hlt₁).bind fun {_ d₂} h₂ => .token_bind ?_
  have hlt₂ := (expressions_accept entry n).expression.left_lt h₂
  cases hop : negated? d₂.ahead.token with
  | none => exact .reject _
  | some test =>
    obtain ⟨r, hr⟩ := reads_relation hop
    refine MirrorsAt.advance.bind fun h₃ => ?_
    have hlt₃ := left_advance h₃ (by rw [hr]; nofun)
    exact (hexpr (by omega)).bind fun _ => (MirrorsAt.expect _).bind fun _ => .emitJump _

structure StatementsMirror (entry n m : Nat) : Prop where
  statement : ∀ {d}, 3 * d.left + 1 ≤ n → MirrorsAt (statement entry n) (statement entry m) d
  statements : ∀ {d}, 3 * d.left + 2 ≤ n → MirrorsAt (statements entry n) (statements entry m) d

theorem statement_mirrors_succ {entry n m : Nat} (hnm : n ≤ m) (ih : StatementsMirror entry n m)
    {d : Draft} (hd : 3 * d.left + 1 ≤ n + 1) :
    MirrorsAt (statement entry (n + 1)) (statement entry (m + 1)) d := by
  rw [statement, statement]
  refine .token_bind ?_
  have hexpr {d'} (hlt : d'.left < d.left) : MirrorsAt (expression entry n) (expression entry m) d' :=
    (expressions_mirror hnm).expression (by omega)
  have hcond {d'} (hlt : d'.left < d.left) : MirrorsAt (condition entry n) (condition entry m) d' :=
    condition_mirrors hnm (by omega)
  have hstmt {d'} (hlt : d'.left < d.left) : MirrorsAt (statement entry n) (statement entry m) d' :=
    ih.statement (by omega)
  have hadv {d'} (hne : d.ahead.token ≠ .eof) (h : advance d = .ok () d') := left_advance h hne
  cases ht : d.ahead.token with
  | ident x k =>
    rw [ht] at hadv
    refine MirrorsAt.advance.bind fun h₁ => (MirrorsAt.expect _).bind fun h₂ => ?_
    have hlt₁ := hadv nofun h₁
    have hlt₂ := left_expect h₂ nofun
    exact (hexpr (by omega)).bind fun _ => (MirrorsAt.emit _).bind fun _ => .expect _
  | keyword kw =>
    rw [ht] at hadv
    cases kw with
    | ifK =>
      refine MirrorsAt.advance.bind fun h₁ => ?_
      have hlt₁ := hadv nofun h₁
      refine (hcond hlt₁).bind fun h₂ => ?_
      have hlt₂ := (accepts_condition entry n).left_lt h₂
      refine (hstmt (by omega)).bind fun h₃ => (MirrorsAt.emitJump _).bind fun h₄ =>
        (MirrorsAt.expect _).bind fun h₅ => (MirrorsAt.patch _).bind fun h₆ => ?_
      have hlt₃ := (statements_accept entry n).statement.left_lt h₃
      have hlt₄ := left_writing (reads_emitJump h₄)
      have hlt₅ := left_expect h₅ nofun
      have hlt₆ := left_writing (reads_patch h₆)
      exact (hstmt (by omega)).bind fun _ => .patch _
    | whileK =>
      refine MirrorsAt.advance.bind fun h₁ => MirrorsAt.here.bind fun h₂ => ?_
      have hlt₁ := hadv nofun h₁
      cases h₂
      refine (hcond hlt₁).bind fun h₃ => ?_
      have hlt₃ := (accepts_condition entry n).left_lt h₃
      exact (hstmt (by omega)).bind fun _ => (MirrorsAt.emit _).bind fun _ => .patch _
    | returnK =>
      refine MirrorsAt.advance.bind fun h₁ => (hexpr (hadv nofun h₁)).bind fun _ => ?_
      exact (MirrorsAt.emit _).bind fun _ => .expect _
    | elseK => exact .reject _
  | punct p =>
    cases p with
    | lbrace => exact .between nofun fun hlt => ih.statements (by omega)
    | semicolon => exact .advance
    | _ => exact .reject _
  | _ => exact .reject _

theorem statements_mirrors_succ {entry n m : Nat} (ih : StatementsMirror entry n m) {d : Draft}
    (hd : 3 * d.left + 2 ≤ n + 1) :
    MirrorsAt (statements entry (n + 1)) (statements entry (m + 1)) d := by
  rw [statements, statements]
  refine .token_bind ?_
  split
  · exact .pure _
  · refine (ih.statement (by omega)).bind fun h₁ => ih.statements ?_
    have hlt := (statements_accept entry n).statement.left_lt h₁
    omega

theorem statements_mirror {entry n m : Nat} (hnm : n ≤ m) : StatementsMirror entry n m := by
  induction n generalizing m with
  | zero => refine ⟨?_, ?_⟩ <;> intro d hd <;> omega
  | succ n ih =>
    obtain ⟨m, rfl⟩ : ∃ k, m = k + 1 := ⟨m - 1, by omega⟩
    have hnm := Nat.le_of_succ_le_succ hnm
    exact ⟨statement_mirrors_succ hnm (ih hnm), statements_mirrors_succ (ih hnm)⟩

theorem function_mirrors {entry n m : Nat} (hnm : n ≤ m) {d : Draft} (hd : 3 * d.left + 2 ≤ n) :
    MirrorsAt (function entry n) (function entry m) d := by
  refine (MirrorsAt.name _).bind fun h₁ => (MirrorsAt.expect _).bind fun h₂ =>
    (MirrorsAt.name _).bind fun h₃ => (MirrorsAt.expect _).bind fun h₄ => ?_
  obtain ⟨x, hname⟩ := reads_name h₁
  obtain ⟨y, hparam⟩ := reads_name h₃
  have hlt₁ := hname.left_lt List.mem_cons_self nofun
  have hlt₂ := left_expect h₂ nofun
  have hlt₃ := hparam.left_lt List.mem_cons_self nofun
  have hlt₄ := left_expect h₄ nofun
  refine MirrorsAt.bind (.between nofun fun hlt => ?_) fun _ => (MirrorsAt.emit _).bind fun _ => .pure _
  exact (statements_mirror hnm).statements (by omega)

theorem begun_mirrors {n m : Nat} (hnm : n ≤ m) {d : Draft} (hd : 3 * d.left + 2 ≤ n) :
    MirrorsAt (begun n) (begun m) d := by
  have hopening : MirrorsAt (opening n) (opening m) d := by
    refine (MirrorsAt.emit _).bind fun h₁ => (MirrorsAt.emit _).bind fun h₂ =>
      MirrorsAt.here.bind fun h₃ => (function_mirrors hnm ?_).bind fun _ => .pure _
    cases h₃
    rw [left_writing (reads_emit h₂), left_writing (reads_emit h₁)]
    exact hd
  exact hopening.bind fun _ => (MirrorsAt.expect _).bind fun _ => .pure _

end Rules

end Solo
