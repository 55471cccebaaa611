import Solo.Proofs.OnePass

/-! Compiling makes progress and ends on every source. By induction on the depth every rule does in a pass
what it does with a draft, at any larger depth too; so its outcome does not depend on the depth once that
is in proportion to the text that is left. -/

namespace Solo

open Draft Grammar

/-- What the rules give for a whole program. -/
def Draft.outcome (symbols : SymbolTable) :
    EStateM.Result CompileError Draft (Nat × Nat) → Except CompileError Bytecode
  | .ok (entry, param) d => .ok ⟨d.code.toList, entry, param, symbols⟩
  | .error e _ => .error e

theorem compile_eq_outcome (source : String) (capacity : Nat) : compile source capacity =
    Draft.outcome (TokenStream.ofSource source).symbols
      (Rules.program (m := Drafting) (4 * (TokenStream.ofSource source).lexemes.length + 8)
        (.start (.ofSource source) capacity)) := by
  cases h : Rules.program (m := Drafting) (4 * (TokenStream.ofSource source).lexemes.length + 8)
      (.start (.ofSource source) capacity) with
  | ok r d => exact compile_eq_ok.2 ⟨r.1, r.2, d, h, rfl⟩
  | error e d => exact compile_eq_error.2 ⟨d, h⟩

namespace Pass

open Rules

/-- What the rules of expressions do in a pass with depth `n`, they do with a draft and depth `m`. -/
structure ExpressionsEcho (symbols : SymbolTable) (entry n m : Nat) : Prop where
  expression : ∀ {d}, Echoes symbols (3 * d.left + 3 ≤ n) (expression entry n) (expression entry m) d
  term : ∀ {d}, Echoes symbols (3 * d.left + 2 ≤ n) (term entry n) (term entry m) d
  operations : ∀ {op?}, Punctual op? → ∀ {d}, Echoes symbols (3 * d.left + 1 ≤ n)
    (operations op? entry n) (operations op? entry m) d
  factor : ∀ {d}, Echoes symbols (3 * d.left + 1 ≤ n) (factor entry n) (factor entry m) d

section

variable {symbols : SymbolTable} {entry n m : Nat} (ih : ExpressionsEcho symbols entry n m) {d : Draft}

include ih

theorem expression_echoes_succ : Echoes symbols (3 * d.left + 3 ≤ n + 1) (expression entry (n + 1))
    (expression entry (m + 1)) d := by
  rw [expression, expression]
  refine (ih.term.mono fun hd => by omega).bind fun h₁ =>
    (ih.operations punctual_additive).mono fun hd => ?_
  have hlt := (expressions_accept entry m).term.left_lt h₁
  omega

theorem term_echoes_succ : Echoes symbols (3 * d.left + 2 ≤ n + 1) (term entry (n + 1))
    (term entry (m + 1)) d := by
  rw [term, term]
  refine (ih.factor.mono fun hd => by omega).bind fun h₁ =>
    (ih.operations punctual_multiplicative).mono fun hd => ?_
  have hlt := (expressions_accept entry m).factor.left_lt h₁
  omega

theorem operations_echoes_succ {op? : Token → Option Arith} (hop? : Punctual op?) :
    Echoes symbols (3 * d.left + 1 ≤ n + 1) (operations op? entry (n + 1))
      (operations op? entry (m + 1)) d := by
  rw [operations, operations]
  refine .token_bind ?_
  cases hop : op? d.ahead.token with
  | none => exact .pure _
  | some op =>
    have hne := hop?.ne_eof hop
    refine (Echoes.advance hne).bind fun h₁ => ?_
    have hlt := left_advance h₁ hne
    refine (ih.term.mono fun hd => by omega).bind fun h₂ => ?_
    have hlt' := (expressions_accept entry m).term.left_lt h₂
    refine (Echoes.emit _).bind fun h₃ => (ih.operations hop?).mono fun hd => ?_
    rw [left_writing (reads_emit h₃)]
    omega

theorem factor_echoes_succ : Echoes symbols (3 * d.left + 1 ≤ n + 1) (factor entry (n + 1))
    (factor entry (m + 1)) d := by
  rw [factor, factor]
  refine .token_bind ?_
  have hparens {d'} (hle : d'.left ≤ d.left) : Echoes symbols (3 * d.left + 1 ≤ n + 1)
      (parens (expression entry n)) (parens (expression entry m)) d' :=
    .between (by simp) (by simp) fun hlt => ih.expression.mono fun hd => by omega
  cases ht : d.ahead.token with
  | number value =>
    refine (Echoes.emit _).bind fun h₁ => .advance ?_
    obtain ⟨-, rfl⟩ := emit_eq_ok.1 h₁
    simp [ht]
  | ident x k =>
    have hne : d.ahead.token ≠ .eof := by simp [ht]
    refine (Echoes.advance hne).bind fun {_ d₁} h₁ => .token_bind ?_
    have hlt := left_advance h₁ hne
    split
    · exact (hparens (by omega)).bind fun _ => .emit _
    · exact .emit _
  | punct p =>
    cases p with
    | lparen => exact hparens (Nat.le_refl _)
    | _ => exact .reject _
  | _ => exact .reject _

end

variable {symbols : SymbolTable} {entry n m : Nat} {d : Draft}

theorem expressions_echo (hnm : n ≤ m) : ExpressionsEcho symbols entry n m := by
  induction n generalizing m with
  | zero =>
    refine ⟨?_, ?_, fun _ => ?_, ?_⟩ <;> exact .spent (by omega)
  | succ n ih =>
    obtain ⟨m, rfl⟩ : ∃ k, m = k + 1 := ⟨m - 1, by omega⟩
    have ih := ih (Nat.le_of_succ_le_succ hnm)
    exact ⟨expression_echoes_succ ih, term_echoes_succ ih, fun h => operations_echoes_succ ih h,
      factor_echoes_succ ih⟩

theorem condition_echoes (hnm : n ≤ m) :
    Echoes symbols (3 * d.left ≤ n) (condition entry n) (condition entry m) d := by
  have hexpr {d'} (hlt : d'.left < d.left) :
      Echoes symbols (3 * d.left ≤ n) (expression entry n) (expression entry m) d' :=
    (expressions_echo hnm).expression.mono fun hd => by omega
  refine (Echoes.expect (by simp)).bind fun h₁ => ?_
  have hlt₁ := left_expect h₁ (by simp)
  refine (hexpr hlt₁).bind fun {_ d₂} h₂ => .token_bind ?_
  have hlt₂ := (expressions_accept entry m).expression.left_lt h₂
  cases hop : negated? d₂.ahead.token with
  | none => exact .reject _
  | some test =>
    obtain ⟨r, hr⟩ := reads_relation hop
    have hne : d₂.ahead.token ≠ .eof := by simp [hr]
    refine (Echoes.advance hne).bind fun h₃ => ?_
    have hlt₃ := left_advance h₃ hne
    exact (hexpr (by omega)).bind fun _ => (Echoes.expect (by simp)).bind fun _ => .emitJump _

structure StatementsEcho (symbols : SymbolTable) (entry n m : Nat) : Prop where
  statement : ∀ {d}, Echoes symbols (3 * d.left + 1 ≤ n) (statement entry n) (statement entry m) d
  statements : ∀ {d}, Echoes symbols (3 * d.left + 2 ≤ n) (statements entry n) (statements entry m) d

theorem statement_echoes_succ (hnm : n ≤ m) (ih : StatementsEcho symbols entry n m) :
    Echoes symbols (3 * d.left + 1 ≤ n + 1) (statement entry (n + 1)) (statement entry (m + 1)) d := by
  rw [statement, statement]
  refine .token_bind ?_
  have hexpr {d'} (hlt : d'.left < d.left) : Echoes symbols (3 * d.left + 1 ≤ n + 1)
      (expression entry n) (expression entry m) d' :=
    (expressions_echo hnm).expression.mono fun hd => by omega
  have hcond {d'} (hlt : d'.left < d.left) : Echoes symbols (3 * d.left + 1 ≤ n + 1)
      (condition entry n) (condition entry m) d' :=
    (condition_echoes hnm).mono fun hd => by omega
  have hstmt {d'} (hlt : d'.left < d.left) : Echoes symbols (3 * d.left + 1 ≤ n + 1)
      (statement entry n) (statement entry m) d' :=
    ih.statement.mono fun hd => by omega
  cases ht : d.ahead.token with
  | ident x k =>
    have hne : d.ahead.token ≠ .eof := by simp [ht]
    refine (Echoes.advance hne).bind fun h₁ => (Echoes.expect (by simp)).bind fun h₂ => ?_
    have hlt₁ := left_advance h₁ hne
    have hlt₂ := left_expect h₂ (by simp)
    exact (hexpr (by omega)).bind fun _ => (Echoes.emit _).bind fun _ => .expect (by simp)
  | keyword kw =>
    have hne : d.ahead.token ≠ .eof := by simp [ht]
    cases kw with
    | ifK =>
      refine (Echoes.advance hne).bind fun h₁ => ?_
      have hlt₁ := left_advance h₁ hne
      refine (hcond hlt₁).bind fun h₂ => ?_
      have hlt₂ := (accepts_condition entry m).left_lt h₂
      refine (hstmt (by omega)).bind fun h₃ => (Echoes.emitJump _).bind fun h₄ =>
        (Echoes.expect (by simp)).bind fun h₅ => (Echoes.patch _).bind fun h₆ => ?_
      have hlt₃ := (statements_accept entry m).statement.left_lt h₃
      have hlt₄ := left_writing (reads_emitJump h₄)
      have hlt₅ := left_expect h₅ (by simp)
      have hlt₆ := left_writing (reads_patch h₆)
      exact (hstmt (by omega)).bind fun _ => .patch _
    | whileK =>
      refine (Echoes.advance hne).bind fun h₁ => Echoes.here.bind fun h₂ => ?_
      have hlt₁ := left_advance h₁ hne
      cases h₂
      refine (hcond hlt₁).bind fun h₃ => ?_
      have hlt₃ := (accepts_condition entry m).left_lt h₃
      exact (hstmt (by omega)).bind fun _ => (Echoes.emit _).bind fun _ => .patch _
    | returnK =>
      refine (Echoes.advance hne).bind fun h₁ => (hexpr (left_advance h₁ hne)).bind fun _ => ?_
      exact (Echoes.emit _).bind fun _ => .expect (by simp)
    | elseK => exact .reject _
  | punct p =>
    cases p with
    | lbrace =>
      exact .between (by simp) (by simp) fun hlt => ih.statements.mono fun hd => by omega
    | semicolon => exact .advance (by simp [ht])
    | _ => exact .reject _
  | _ => exact .reject _

theorem statements_echoes_succ (ih : StatementsEcho symbols entry n m) :
    Echoes symbols (3 * d.left + 2 ≤ n + 1) (statements entry (n + 1)) (statements entry (m + 1)) d := by
  rw [statements, statements]
  refine .token_bind ?_
  split
  · exact .pure _
  · refine (ih.statement.mono fun hd => by omega).bind fun h₁ => ih.statements.mono fun hd => ?_
    have hlt := (statements_accept entry m).statement.left_lt h₁
    omega

theorem statements_echo (hnm : n ≤ m) : StatementsEcho symbols entry n m := by
  induction n generalizing m with
  | zero => refine ⟨?_, ?_⟩ <;> exact .spent (by omega)
  | succ n ih =>
    obtain ⟨m, rfl⟩ : ∃ k, m = k + 1 := ⟨m - 1, by omega⟩
    have hnm := Nat.le_of_succ_le_succ hnm
    exact ⟨statement_echoes_succ hnm (ih hnm), statements_echoes_succ (ih hnm)⟩

theorem function_echoes (hnm : n ≤ m) :
    Echoes symbols (3 * d.left + 2 ≤ n) (function entry n) (function entry m) d := by
  refine (Echoes.name _).bind fun h₁ => (Echoes.expect (by simp)).bind fun h₂ =>
    (Echoes.name _).bind fun h₃ => (Echoes.expect (by simp)).bind fun h₄ => ?_
  obtain ⟨x, hname⟩ := reads_name h₁
  obtain ⟨y, hparam⟩ := reads_name h₃
  have hlt₁ := hname.left_lt List.mem_cons_self (by simp)
  have hlt₂ := left_expect h₂ (by simp)
  have hlt₃ := hparam.left_lt List.mem_cons_self (by simp)
  have hlt₄ := left_expect h₄ (by simp)
  refine Echoes.bind (.between (by simp) (by simp) fun hlt => ?_) fun _ =>
    (Echoes.emit _).bind fun _ => .pure _
  exact (statements_echo hnm).statements.mono fun hd => by omega

/-- When the action succeeds, it has moved past a token. What it has moved past is not the end of file, and
no longer part of the text. -/
def Consumes {α : Type} (x : Passing α) (p : Pass) : Prop :=
  ∀ a p', x p = .ok a p' → p.draft.ahead.token ≠ .eof ∧ p'.text.length < p.text.length ∧
    ∃ ts, ts ≠ [] ∧ MovesPast p ts p'

/-- The action does not use up its depth. -/
def Ends {α : Type} (x : Passing α) (p : Pass) : Prop := ∀ p', x p ≠ .error .spent p'

/-- The pass that is left, however the action has ended. -/
def last {α : Type} : EStateM.Result Stop Pass α → Pass
  | .ok _ p => p
  | .error _ p => p

/-- What a pass over a whole program gives, unless a rule has used up its depth. -/
def outcome : EStateM.Result Stop Pass (Nat × Nat) → Option (Except CompileError Bytecode)
  | .ok (entry, param) p => some (.ok ⟨p.draft.code.toList, entry, param, p.scanner.symbols⟩)
  | .error (.failed e) _ => some (.error e)
  | .error .spent _ => none

section

variable {α : Type} {enough : Prop} {x : Passing α} {y : Drafting α} {p p' : Pass} {ts : List Token}

theorem MovesPast.ahead_ne_eof (h : MovesPast p ts p') (hts : ts ≠ []) : p.draft.ahead.token ≠ .eof := by
  obtain ⟨us, -, hus⟩ := h.answers
  obtain ⟨t, ts, rfl⟩ := List.exists_cons_of_ne_nil hts
  intro he
  rw [List.cons_append] at hus
  exact h.solid (by rw [← (List.cons.inj hus).1, he]; exact List.mem_cons_self)

theorem Echoes.consumes {r : Rule} (h : Echoes symbols enough x y d) (hy : Accepts y (.rule r))
    (hp : HeldIn symbols p d) : Consumes x p := by
  intro a p' hx
  obtain ⟨d', ts, hd', -, hreads, hmoves⟩ := h.ok hp hx
  have hlt := hy.left_lt hd'
  have hts : ts ≠ [] := by
    rintro rfl
    have hleft := left_writing hreads
    omega
  have hlength := hmoves.length
  have hpos := List.length_pos_iff.2 hts
  exact ⟨hmoves.ahead_ne_eof hts, by omega, ts, hts, hmoves⟩

theorem Echoes.ends (h : Echoes symbols enough x y d) (hp : HeldIn symbols p d) (henough : enough) :
    Ends x p := by
  intro p' hx
  obtain ⟨-, ⟨e, _, he, -⟩ | ⟨-, hnot⟩⟩ := h.error hp hx
  · cases he
  · exact hnot henough

theorem Reached.heldIn {source : String} {capacity : Nat} (h : Reached source capacity p) :
    ∃ d, HeldIn (TokenStream.ofSource source).symbols p d := by
  induction h with
  | start => exact ⟨_, heldIn_start source capacity⟩
  | advance _ hp ih =>
    obtain ⟨d, hd⟩ := ih
    rcases hd.advance with ⟨p', d', hadv, -, hheld, -⟩ | ⟨_, _, p', hadv, -⟩
    · rw [hadv] at hp
      cases hp
      exact ⟨d', hheld⟩
    · rw [hadv] at hp
      cases hp
  | emit _ hp ih =>
    obtain ⟨d, hd⟩ := ih
    exact hd.write (local_emit _) hp
  | patch _ hp ih =>
    obtain ⟨d, hd⟩ := ih
    exact hd.write (local_patch _) hp

theorem HeldIn.consumes (h : HeldIn symbols p d) (entry n : Nat) :
    Consumes (statement entry n) p ∧ Consumes (condition entry n) p ∧
      Consumes (expression entry n) p ∧ Consumes (term entry n) p ∧ Consumes (factor entry n) p := by
  have hexpr := expressions_accept entry n
  have hecho : ExpressionsEcho symbols entry n n := expressions_echo (Nat.le_refl n)
  refine ⟨?_, ?_, ?_, ?_, ?_⟩
  · exact (statements_echo (Nat.le_refl n)).statement.consumes (statements_accept entry n).statement h
  · exact (condition_echoes (Nat.le_refl n)).consumes (accepts_condition entry n) h
  · exact hecho.expression.consumes hexpr.expression h
  · exact hecho.term.consumes hexpr.term h
  · exact hecho.factor.consumes hexpr.factor h

theorem HeldIn.ends (h : HeldIn symbols p d) (entry : Nat) {n : Nat} (hn : 3 * p.text.length + 3 ≤ n) :
    Ends (statements entry n) p ∧ Ends (statement entry n) p ∧ Ends (condition entry n) p ∧
      Ends (expression entry n) p ∧ Ends (operations additive? entry n) p ∧ Ends (term entry n) p ∧
      Ends (operations multiplicative? entry n) p ∧ Ends (factor entry n) p := by
  have hleft := h.left_le
  have hexpr : ExpressionsEcho symbols entry n n := expressions_echo (Nat.le_refl n)
  have hstmt : StatementsEcho symbols entry n n := statements_echo (Nat.le_refl n)
  refine ⟨?_, ?_, ?_, ?_, ?_, ?_, ?_, ?_⟩
  · exact hstmt.statements.ends h (by omega)
  · exact hstmt.statement.ends h (by omega)
  · exact (condition_echoes (Nat.le_refl n)).ends h (by omega)
  · exact hexpr.expression.ends h (by omega)
  · exact (hexpr.operations punctual_additive).ends h (by omega)
  · exact hexpr.term.ends h (by omega)
  · exact (hexpr.operations punctual_multiplicative).ends h (by omega)
  · exact hexpr.factor.ends h (by omega)

/-- Behind the first token, the answers are the tokens moved past and the one that is looked at. -/
theorem MovesPast.answers_eq (h : MovesPast p ts p') (hp : p.answers = [.ok p.draft.ahead.token]) :
    p'.answers = ts.map .ok ++ [.ok p'.draft.ahead.token] := by
  obtain ⟨us, hanswers, hus⟩ := h.answers
  rw [hanswers, hp, ← List.map_singleton (f := Except.ok), ← List.map_append, List.singleton_append,
    hus, List.map_append, List.map_singleton]

theorem ok_eof_not_mem (h : .eof ∉ ts) : .ok .eof ∉ ts.map (Except.ok (ε := ScanError)) := by
  simpa using h

theorem Halts.passes (h : Halts p p') (hp : p.answers = [.ok p.draft.ahead.token]) :
    .ok .eof ∉ p'.answers.dropLast ∧ p'.answers.length ≤ p.text.length + 2 := by
  obtain ⟨ts, p₁, hmoves, hend⟩ := h
  have hlength := hmoves.length
  have hnot := ok_eof_not_mem hmoves.solid
  rcases hend with hanswers | ⟨hne, e, hanswers⟩
  · rw [hanswers, hmoves.answers_eq hp, List.dropLast_concat]
    refine ⟨hnot, ?_⟩
    simp only [List.length_append, List.length_map, List.length_singleton]
    omega
  · rw [hanswers, hmoves.answers_eq hp, List.dropLast_concat]
    refine ⟨fun hmem => ?_, ?_⟩
    · rcases List.mem_append.1 hmem with hmem | hmem
      · exact hnot hmem
      · exact hne (Except.ok.inj (List.mem_singleton.1 hmem)).symm
    · simp only [List.length_append, List.length_map, List.length_singleton]
      omega

theorem HeldIn.symbols_eq (h : HeldIn symbols p d) (hend : p.scanner.rest = []) :
    p.scanner.symbols = symbols :=
  ((Scanner.Yields.eof (Scanner.next_nil hend)).unique h.yields).2.2

end

/-- All of a program but the end of file behind it. -/
def opened {m : Type → Type} [Monad m] [Toolkit m] (n : Nat) : m (Nat × Nat) := do
  Toolkit.advance
  opening n

theorem program_eq {m : Type → Type} [Monad m] [LawfulMonad m] [Toolkit m] (n : Nat) :
    (program n : m (Nat × Nat)) = do
      let start ← opened n
      Toolkit.expect .eof
      return start :=
  (bind_assoc _ _ _).symm

section

variable {source : String} {capacity : Nat} {r : Nat × Nat} {stop : Stop} {p : Pass}

theorem opening_echoes (hnm : n ≤ m) :
    Echoes symbols (3 * d.left + 2 ≤ n) (opening n) (opening m) d := by
  refine (Echoes.emit _).bind fun h₁ => (Echoes.emit _).bind fun h₂ => Echoes.here.bind fun h₃ =>
    ((function_echoes hnm).mono fun hd => ?_).bind fun _ => .pure _
  cases h₃
  rw [left_writing (reads_emit h₂), left_writing (reads_emit h₁)]
  exact hd

/-- The first token stands behind no other. -/
theorem begins (h : advance (start source capacity) = .ok () p) :
    ∃ d, Draft.advance (.start (.ofSource source) capacity) = .ok () d ∧
      HeldIn (TokenStream.ofSource source).symbols p d ∧ p.answers = [.ok p.draft.ahead.token] ∧
      p.text.length ≤ source.length := by
  rcases (heldIn_start source capacity).advance with
    ⟨p', d, hadv, hd, hp, hanswers, htext⟩ | ⟨_, _, _, hadv, -⟩
  · rw [hadv] at h
    cases h
    refine ⟨d, hd, hp, by rw [hp.ahead]; exact hanswers, ?_⟩
    exact Nat.le_trans htext.length_le (Nat.le_of_eq String.length_toList)
  · rw [hadv] at h
    cases h

theorem opened_ok (hnm : n ≤ m) (h : opened (m := Passing) n (start source capacity) = .ok r p) :
    ∃ d, ∃ ts : List Token, opened (m := Drafting) m (.start (.ofSource source) capacity) = .ok r d ∧
      HeldIn (TokenStream.ofSource source).symbols p d ∧ .eof ∉ ts ∧ ts.length ≤ source.length ∧
      p.answers = ts.map .ok ++ [.ok p.draft.ahead.token] := by
  obtain ⟨_, p₁, hadv, hrest⟩ := bind_eq_ok.1 h
  obtain ⟨d₁, hd₁, hp₁, hanswers, htext⟩ := begins hadv
  obtain ⟨d, ts, hd, hp, -, hmoves⟩ := (opening_echoes hnm).ok hp₁ hrest
  have hlength := hmoves.length
  refine ⟨d, ts, ?_, hp, hmoves.solid, by omega, hmoves.answers_eq hanswers⟩
  exact (bind_of_ok hd₁).trans hd

theorem opened_error (hnm : n ≤ m) (h : opened (m := Passing) n (start source capacity) = .error stop p) :
    .ok .eof ∉ p.answers.dropLast ∧ p.answers.length ≤ source.length + 2 ∧
      ((∃ e d, stop = .failed e ∧
        opened (m := Drafting) m (.start (.ofSource source) capacity) = .error e d) ∨
        stop = .spent ∧ ¬ 3 * (TokenStream.ofSource source).lexemes.length + 2 ≤ n) := by
  rcases bind_eq_error.1 h with hadv | ⟨_, p₁, hadv, hrest⟩
  · rcases (heldIn_start source capacity).advance with
      ⟨_, _, hadv', -⟩ | ⟨pos, e, p', hadv', hd, hanswers⟩
    · cases hadv'.symm.trans hadv
    · cases hadv'.symm.trans hadv
      refine ⟨?_, ?_, .inl ⟨_, _, rfl, bind_of_error hd⟩⟩
      · rw [hanswers]; exact List.not_mem_nil
      · rw [hanswers]; simp [start]
  · obtain ⟨d₁, hd₁, hp₁, hanswers, htext⟩ := begins hadv
    obtain ⟨hhalts, hstop⟩ := (opening_echoes hnm).error hp₁ hrest
    obtain ⟨hpasses, hlength⟩ := hhalts.passes hanswers
    refine ⟨hpasses, by omega, ?_⟩
    rcases hstop with ⟨e, d, hstop, hd⟩ | ⟨hstop, hnot⟩
    · exact .inl ⟨e, d, hstop, (bind_of_ok hd₁).trans hd⟩
    · have hleft := left_begun_le hd₁
      exact .inr ⟨hstop, fun hn => hnot (by omega)⟩

theorem opened_passes (source : String) (capacity n : Nat) :
    .ok .eof ∉ (last (opened (m := Passing) n (start source capacity))).answers.dropLast := by
  cases h : opened (m := Passing) n (start source capacity) with
  | ok r p =>
    obtain ⟨_, ts, -, -, hts, -, hanswers⟩ := opened_ok (Nat.le_refl n) h
    rw [last, hanswers, List.dropLast_concat]
    exact ok_eof_not_mem hts
  | error stop p => exact (opened_error (Nat.le_refl n) h).1

/-- Once a token is read, only the end of file stands behind the end of file. -/
theorem HeldIn.advance_eof (h : HeldIn symbols p d) (hread : p.answers ≠ []) (he : d.ahead.token = .eof) :
    ∃ p' d', Pass.advance p = .ok () p' ∧ Draft.advance d = .ok () d' ∧ HeldIn symbols p' d' ∧
      p'.scanner.symbols = symbols ∧ p'.answers = p.answers ++ [.ok .eof] := by
  have hend := h.ended hread he
  have hnext := advance_of_token (Scanner.next_nil hend)
  rcases h.advance with ⟨p', d', hadv, hd', hp', -⟩ | ⟨_, _, _, hadv, -⟩
  · cases hadv.symm.trans hnext
    exact ⟨_, d', hadv, hd', hp', hp'.symbols_eq hend, rfl⟩
  · cases hadv.symm.trans hnext

/-- At the end of file the pass reads it once more, and elsewhere it fails. -/
theorem HeldIn.expect_eof (h : HeldIn symbols p d) (hread : p.answers ≠ []) :
    (d.ahead.token = .eof ∧ ∃ p' d', Toolkit.expect (m := Passing) .eof p = .ok () p' ∧
      Draft.expect .eof d = .ok () d' ∧ HeldIn symbols p' d' ∧
      p'.scanner.symbols = symbols ∧ p'.answers = p.answers ++ [.ok .eof]) ∨
    ∃ e, Toolkit.expect (m := Passing) .eof p = .error (.failed e) p ∧ Draft.expect .eof d = .error e d := by
  have hpass : Toolkit.expect (m := Passing) .eof p = (if p.draft.ahead.token = .eof then
      Pass.advance else Pass.write (Draft.reject (.token .eof))) p := rfl
  have hdraft : Draft.expect .eof d = (if d.ahead.token = .eof then Draft.advance else
      Draft.reject (.token .eof)) d := rfl
  rw [hpass, hdraft, h.ahead]
  by_cases he : d.ahead.token = .eof
  · rw [if_pos he, if_pos he]
    exact .inl ⟨he, h.advance_eof hread he⟩
  · rw [if_neg he, if_neg he]
    refine .inr ⟨_, ?_, rfl⟩
    rw [← h.ahead]
    rfl

/-- A program that is read to its end is followed by the end of file, which is then read once more. -/
theorem program_ok (hnm : n ≤ m) (h : program (m := Passing) n (start source capacity) = .ok r p) :
    ∃ d, ∃ ts : List Token, program (m := Drafting) m (.start (.ofSource source) capacity) = .ok r d ∧
      p.draft.code = d.code ∧ p.scanner.symbols = (TokenStream.ofSource source).symbols ∧
      .eof ∉ ts ∧ ts.length ≤ source.length ∧ p.answers = ts.map .ok ++ [.ok .eof, .ok .eof] := by
  rw [program_eq] at h
  obtain ⟨_, p₁, hopened, h⟩ := bind_eq_ok.1 h
  obtain ⟨_, p₂, hexpect, h⟩ := bind_eq_ok.1 h
  obtain ⟨rfl, rfl⟩ := pure_eq_ok.1 h
  obtain ⟨d₁, ts, hd₁, hp₁, hts, hlength, hanswers⟩ := opened_ok hnm hopened
  rcases hp₁.expect_eof (by simp [hanswers]) with
    ⟨he, p', d₂, hp', hd₂, hp₂, hsymbols, hanswers'⟩ | ⟨e, hp', -⟩
  · cases hexpect.symm.trans hp'
    refine ⟨d₂, ts, ?_, by rw [hp₂.draft]; rfl, hsymbols, hts, hlength, ?_⟩
    · rw [program_eq]
      exact (bind_of_ok hd₁).trans (bind_of_ok hd₂)
    · rw [hanswers', hanswers, hp₁.ahead, he, List.append_assoc]
      rfl
  · cases hexpect.symm.trans hp'

theorem program_error (hnm : n ≤ m)
    (h : program (m := Passing) n (start source capacity) = .error stop p) :
    .ok .eof ∉ p.answers.dropLast ∧ p.answers.length ≤ source.length + 2 ∧
      ((∃ e d, stop = .failed e ∧
        program (m := Drafting) m (.start (.ofSource source) capacity) = .error e d) ∨
        stop = .spent ∧ ¬ 3 * (TokenStream.ofSource source).lexemes.length + 2 ≤ n) := by
  rw [program_eq] at h ⊢
  rcases bind_eq_error.1 h with hopened | ⟨_, p₁, hopened, h⟩
  · obtain ⟨hpasses, hlength, ⟨e, d, hstop, hd⟩ | hspent⟩ := opened_error hnm hopened
    · exact ⟨hpasses, hlength, .inl ⟨e, d, hstop, bind_of_error hd⟩⟩
    · exact ⟨hpasses, hlength, .inr hspent⟩
  · obtain ⟨d₁, ts, hd₁, hp₁, hts, hlength, hanswers⟩ := opened_ok hnm hopened
    rcases hp₁.expect_eof (by simp [hanswers]) with ⟨-, p', -, hp', -⟩ | ⟨e, hp', hd₂⟩
    · rw [bind_of_ok hp'] at h
      cases h
    · rw [bind_of_error hp'] at h
      cases h
      refine ⟨?_, ?_, .inl ⟨e, d₁, rfl, (bind_of_ok hd₁).trans (bind_of_error hd₂)⟩⟩
      · rw [hanswers, List.dropLast_concat]
        exact ok_eof_not_mem hts
      · rw [hanswers, List.length_append, List.length_map, List.length_singleton]
        omega

theorem program_length_le (source : String) (capacity n : Nat) :
    (last (program (m := Passing) n (start source capacity))).answers.length ≤ source.length + 2 := by
  cases h : program (m := Passing) n (start source capacity) with
  | ok r p =>
    obtain ⟨_, ts, -, -, -, -, hlength, hanswers⟩ := program_ok (Nat.le_refl n) h
    rw [last, hanswers, List.length_append, List.length_map]
    exact Nat.add_le_add_right hlength 2
  | error stop p => exact (program_error (Nat.le_refl n) h).2.1

/-- With enough depth a pass gives what the rules give with any larger one. -/
theorem outcome_program (source : String) (capacity : Nat)
    (hn : 3 * (TokenStream.ofSource source).lexemes.length + 2 ≤ n) (hnm : n ≤ m) :
    outcome (program (m := Passing) n (start source capacity)) =
      some (Draft.outcome (TokenStream.ofSource source).symbols
        (program (m := Drafting) m (.start (.ofSource source) capacity))) := by
  cases h : program (m := Passing) n (start source capacity) with
  | ok r p =>
    obtain ⟨d, -, hd, hcode, hsymbols, -⟩ := program_ok hnm h
    rw [hd, outcome, Draft.outcome, hcode, hsymbols]
  | error stop p =>
    obtain ⟨-, -, ⟨e, d, rfl, hd⟩ | ⟨-, hnot⟩⟩ := program_error hnm h
    · rw [hd, outcome, Draft.outcome]
    · exact absurd hn hnot

/-- So what the rules give is the same with any depth that is enough. -/
theorem outcome_depth (source : String) (capacity k : Nat)
    (hk : 3 * (TokenStream.ofSource source).lexemes.length + 2 ≤ k) :
    Draft.outcome (TokenStream.ofSource source).symbols
        (program (m := Drafting) k (.start (.ofSource source) capacity)) = compile source capacity := by
  have hleast := Nat.le_refl (3 * (TokenStream.ofSource source).lexemes.length + 2)
  have hcompile : 3 * (TokenStream.ofSource source).lexemes.length + 2 ≤
      4 * (TokenStream.ofSource source).lexemes.length + 8 := by omega
  have hsame := (outcome_program source capacity hleast hk).symm.trans
    (outcome_program source capacity hleast hcompile)
  rw [compile_eq_outcome]
  exact Option.some.inj hsame

end

end Pass

open Pass Rules

/-- Every character takes a byte. -/
theorem length_le_utf8ByteSize (source : String) : source.length ≤ source.utf8ByteSize := by
  rw [← String.size_toByteArray, ← String.ofList_toList (s := source), String.toByteArray_ofList,
    List.utf8Encode, List.size_toByteArray, String.length_ofList]
  induction source.toList with
  | nil => exact Nat.zero_le _
  | cons c cs ih =>
    have hpos := c.utf8Size_pos
    rw [List.flatMap_cons, List.length_append, String.length_utf8EncodeChar, List.length_cons]
    omega

/-- Compiling makes progress and ends. In whatever state a pass over a text is, a rule that succeeds has
moved past a token and past no end of file, and with a depth in proportion to the text that is left no rule
uses it up. Nothing in a program moves past the end of file; only when all of it is read, the end of file is
read once more. So the scanner is asked at most twice more than the text has bytes, whatever the depth, and
if that is enough the pass gives what compiling gives. -/
theorem compiling_makes_progress (source : String) (capacity : Nat) :
    (∀ p, Reached source capacity p → ∀ entry n,
      Consumes (statement entry n) p ∧ Consumes (condition entry n) p ∧
      Consumes (expression entry n) p ∧ Consumes (term entry n) p ∧ Consumes (factor entry n) p) ∧
    (∀ p, Reached source capacity p → ∀ entry n, 3 * p.text.length + 3 ≤ n →
      Ends (statements entry n) p ∧ Ends (statement entry n) p ∧ Ends (condition entry n) p ∧
      Ends (expression entry n) p ∧ Ends (operations additive? entry n) p ∧ Ends (term entry n) p ∧
      Ends (operations multiplicative? entry n) p ∧ Ends (factor entry n) p) ∧
    (∀ n, .ok .eof ∉ (last (opened (m := Passing) n (start source capacity))).answers.dropLast) ∧
    (∀ n r p, program (m := Passing) n (start source capacity) = .ok r p →
      ∃ ts : List Token, .eof ∉ ts ∧ p.answers = ts.map .ok ++ [.ok .eof, .ok .eof]) ∧
    (∀ n stop p, program (m := Passing) n (start source capacity) = .error stop p →
      .ok .eof ∉ p.answers.dropLast) ∧
    (∀ n, (last (program (m := Passing) n (start source capacity))).answers.length ≤
      source.utf8ByteSize + 2) ∧
    ∀ n, 3 * source.length + 2 ≤ n →
      outcome (program (m := Passing) n (start source capacity)) = some (compile source capacity) := by
  refine ⟨fun p hp entry n => ?_, fun p hp entry n hn => ?_, opened_passes source capacity,
    fun n r p h => ?_, fun n stop p h => (program_error (Nat.le_refl n) h).1, fun n => ?_, fun n hn => ?_⟩
  · obtain ⟨d, hd⟩ := hp.heldIn
    exact hd.consumes entry n
  · obtain ⟨d, hd⟩ := hp.heldIn
    exact hd.ends entry hn
  · obtain ⟨-, ts, -, -, -, hts, -, hanswers⟩ := program_ok (Nat.le_refl n) h
    exact ⟨ts, hts, hanswers⟩
  · have hle := program_length_le source capacity n
    have hbytes := length_le_utf8ByteSize source
    omega
  · have hlength := (TokenStream.yields_ofSource source).length_le
    rw [Scanner.ofSource, String.length_toList] at hlength
    rw [outcome_program source capacity (by omega) (Nat.le_refl n),
      outcome_depth source capacity n (by omega)]

-- where every byte is a token, the scanner is asked as often as it can be
example : (last (program (m := Passing) 20 (start "f(x)\x7b\x7d" 9))).answers.length = 6 + 2 := by
  decide +kernel

end Solo
