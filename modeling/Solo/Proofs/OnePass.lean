import Solo.Proofs.Writing

/-! Compiling in one pass over the text. Here the rules read a token off the text when they move on to it,
and a rule that has used up its depth says so. What each rule does is then what it does with a draft of the
whole token stream; beyond that it moves past tokens that are not the end of file, so the text that is left
gets shorter with every reading, and a depth in proportion to it is never used up. -/

namespace Solo

open Grammar

/-- What a pass knows of a draft: nothing of what stands behind the token that is looked at. -/
def Draft.alone (d : Draft) : Draft := { d with rest := [], ending := .eof {} }

/-- A program while it is compiled straight from its text. -/
structure Pass where
  /-- The token that is looked at, and what is written. -/
  draft : Draft
  /-- What has not been read. -/
  scanner : Scanner
  /-- The text from the token that is looked at on. -/
  text : List Char
  /-- What the scanner has answered, one for each time that it was asked. -/
  answers : List (Except ScanError Token) := []

inductive Pass.Stop where
  | failed (e : CompileError)
  /-- A rule has used up its depth. -/
  | spent

abbrev Passing := EStateM Pass.Stop Pass

namespace Pass

/-- Nothing read, nothing written. -/
def start (source : String) (capacity : Nat) : Pass where
  draft := .start ⟨[], .eof {}, .empty⟩ capacity
  scanner := .ofSource source
  text := source.toList

/-- Does what leaves the text alone. -/
def write {α : Type} (x : Drafting α) : Passing α := fun p =>
  match x p.draft with
  | .ok a d => .ok a { p with draft := d }
  | .error e d => .error (.failed e) { p with draft := d }

/-- Reads the next token. -/
def advance : Passing Unit := fun p =>
  let (r, scanner) := p.scanner.next
  let text := p.scanner.skipBlanks.rest
  let answers := p.answers ++ [r.token]
  match r.token with
  | .ok t => .ok () { draft := { p.draft with ahead := ⟨r.pos, t⟩ }, scanner, text, answers }
  | .error e => .error (.failed (.lexical r.pos e)) { p with scanner, text, answers }

/-- A rule that has used up its depth says so. -/
instance : Toolkit Passing where
  token := write Draft.token
  here := write Draft.here
  advance := advance
  reject expected := write (Draft.reject expected)
  emit i := write (Draft.emit i)
  emitJump i := write (Draft.emitJump i)
  patch index := write (Draft.patch index)
  spent _ := fun p => .error .spent p

/-- The pass can get to this state, whatever the order in which things are read and written. -/
inductive Reached (source : String) (capacity : Nat) : Pass → Prop where
  | start : Reached source capacity (start source capacity)
  | advance {p p' : Pass} (h : Reached source capacity p) (hp : advance p = .ok () p') :
      Reached source capacity p'
  | emit {p p' : Pass} {i : Instruction} (h : Reached source capacity p)
      (hp : write (Draft.emit i) p = .ok () p') : Reached source capacity p'
  | patch {p p' : Pass} {index : Nat} (h : Reached source capacity p)
      (hp : write (Draft.patch index) p = .ok () p') : Reached source capacity p'

/-- From `p` to `p'` the tokens `ts` are moved past. None of them is the end of file, and each takes some
of the text. -/
structure MovesPast (p : Pass) (ts : List Token) (p' : Pass) : Prop where
  answers : ∃ us : List Token, p'.answers = p.answers ++ us.map .ok ∧
    p.draft.ahead.token :: us = ts ++ [p'.draft.ahead.token]
  solid : .eof ∉ ts
  suffix : p'.text <:+ p.text
  length : p'.text.length + ts.length ≤ p.text.length

/-- What fails at `p'` has not moved past the end of file either. -/
def Halts (p p' : Pass) : Prop := ∃ ts p₁, MovesPast p ts p₁ ∧
  (p'.answers = p₁.answers ∨
    p₁.draft.ahead.token ≠ .eof ∧ ∃ e, p'.answers = p₁.answers ++ [.error e])

variable {p p₁ p' : Pass} {ts us : List Token}

theorem MovesPast.refl (hahead : p'.draft.ahead = p.draft.ahead) (hanswers : p'.answers = p.answers)
    (htext : p'.text = p.text) : MovesPast p [] p' where
  answers := ⟨[], by simp [hanswers], by simp [hahead]⟩
  solid := List.not_mem_nil
  suffix := htext ▸ List.suffix_refl _
  length := by rw [htext, List.length_nil]; omega

theorem MovesPast.trans (h : MovesPast p ts p₁) (h' : MovesPast p₁ us p') : MovesPast p (ts ++ us) p' where
  answers := by
    obtain ⟨vs, hvs, hts⟩ := h.answers
    obtain ⟨ws, hws, hus⟩ := h'.answers
    refine ⟨vs ++ ws, by rw [hws, hvs, List.map_append, List.append_assoc], ?_⟩
    rw [← List.cons_append, hts, List.append_assoc, List.singleton_append, hus, List.append_assoc]
  solid hmem := (List.mem_append.1 hmem).elim h.solid h'.solid
  suffix := h'.suffix.trans h.suffix
  length := by
    have hle := h.length
    have hle' := h'.length
    rw [List.length_append]
    omega

theorem MovesPast.halts (h : MovesPast p ts p₁) (h' : Halts p₁ p') : Halts p p' := by
  obtain ⟨us, p₂, hmoves, hend⟩ := h'
  exact ⟨ts ++ us, p₂, h.trans hmoves, hend⟩

end Pass

namespace Scanner

variable {s s' : Scanner} {pos : Position}

theorem suffix_skipBlanks (s : Scanner) : s.skipBlanks.rest <:+ s.rest := List.drop_suffix _ _

theorem next_nil (hs : s.rest = []) : s.next = (⟨s.pos, .ok .eof⟩, s) := by
  have hskip : s.skipBlanks = s := by
    obtain ⟨rest, pos, symbols⟩ := s
    obtain rfl : rest = [] := hs
    rfl
  rw [next, hskip, token_nil hs]

/-- Behind the end of file there is nothing but the same end of file. -/
theorem next_eof (h : s.next = (⟨pos, .ok .eof⟩, s')) :
    s'.rest = [] ∧ s'.next = (⟨pos, .ok .eof⟩, s') := by
  obtain ⟨rfl, htoken⟩ := next_pos h
  have hrest := rest_of_token_eof htoken
  rw [token_nil hrest] at htoken
  cases htoken
  exact ⟨hrest, next_nil hrest⟩

/-- A reading takes its characters off the front of the text, and only the end of file takes none. -/
theorem token_suffix {r : Except ScanError Token} (h : s.token = (r, s')) :
    s'.rest <:+ s.rest ∧ (r ≠ .ok .eof → s'.rest.length < s.rest.length) := by
  by_cases hr : s.rest = []
  · rw [token_nil hr] at h
    cases h
    exact ⟨List.suffix_refl _, fun hne => absurd rfl hne⟩
  · obtain ⟨n, hn, ⟨r', he, -⟩ | ⟨x, he⟩⟩ := token_eq s hr
    all_goals
      rw [he] at h
      cases h
      exact ⟨List.drop_suffix _ _, fun _ => length_skip_lt hn hr⟩

theorem Yields.length_le {ls : List Lexeme} {ending : TokenStream.Ending} {symbols : SymbolTable}
    (h : s.Yields ls ending symbols) : ls.length ≤ s.rest.length := by
  induction h with
  | eof h => exact Nat.zero_le _
  | stuck h => exact Nat.zero_le _
  | token h ht _ ih =>
    have hlt := next_lt h ht
    rw [List.length_cons]
    omega

end Scanner

namespace Pass

/-- The draft `d` holds what the pass has, and all that it will read. -/
structure HeldIn (symbols : SymbolTable) (p : Pass) (d : Draft) : Prop where
  draft : p.draft = d.alone
  yields : p.scanner.Yields d.rest d.ending symbols
  suffix : p.scanner.rest <:+ p.text
  shorter : d.ahead.token ≠ .eof → p.scanner.rest.length < p.text.length
  -- before anything is read the end of file stands in for the first token
  ended : p.answers ≠ [] → d.ahead.token = .eof → p.scanner.rest = []

theorem heldIn_start (source : String) (capacity : Nat) :
    HeldIn (TokenStream.ofSource source).symbols (start source capacity)
      (.start (.ofSource source) capacity) where
  draft := rfl
  yields := TokenStream.yields_ofSource source
  suffix := List.suffix_refl _
  shorter h := absurd rfl h
  ended h := absurd rfl h

variable {symbols : SymbolTable} {p p' : Pass} {d d' : Draft}

theorem HeldIn.ahead (h : HeldIn symbols p d) : p.draft.ahead = d.ahead := by
  rw [h.draft]
  rfl

theorem HeldIn.left_le (h : HeldIn symbols p d) : d.left ≤ p.text.length := by
  have hrest := h.yields.length_le
  have htext := h.suffix.length_le
  have hcount : (d.rest.map (·.token)).countP (· ≠ .eof) ≤ d.rest.length :=
    Nat.le_trans List.countP_le_length (Nat.le_of_eq (List.length_map _))
  rw [Draft.left, Draft.tokens]
  by_cases he : d.ahead.token = .eof
  · rw [List.countP_cons_of_neg (by simpa using he)]
    omega
  · have hlt := h.shorter he
    rw [List.countP_cons_of_pos (by simpa using he)]
    omega

theorem advance_of_token {pos : Position} {t : Token} {s' : Scanner}
    (h : p.scanner.next = (⟨pos, .ok t⟩, s')) :
    advance p = .ok () ⟨{ p.draft with ahead := ⟨pos, t⟩ }, s', p.scanner.skipBlanks.rest,
      p.answers ++ [.ok t]⟩ := by
  rw [advance, h]

theorem advance_of_error {pos : Position} {e : ScanError} {s' : Scanner}
    (h : p.scanner.next = (⟨pos, .error e⟩, s')) :
    advance p = .error (.failed (.lexical pos e)) ⟨p.draft, s', p.scanner.skipBlanks.rest,
      p.answers ++ [.error e]⟩ := by
  rw [advance, h]

/-- Reading a token is in step with looking at the next one of the stream. -/
theorem HeldIn.advance (h : HeldIn symbols p d) :
    (∃ p' d', advance p = .ok () p' ∧ Draft.advance d = .ok () d' ∧ HeldIn symbols p' d' ∧
      p'.answers = p.answers ++ [.ok d'.ahead.token] ∧ p'.text <:+ p.scanner.rest) ∨
    ∃ pos e p', advance p = .error (.failed (.lexical pos e)) p' ∧
      Draft.advance d = .error (.lexical pos e) d ∧ p'.answers = p.answers ++ [.error e] := by
  obtain ⟨ahead, rest, ending, capacity, code, size, trace⟩ := d
  obtain ⟨hdraft, hyields, -, -, -⟩ := h
  have hblanks := p.scanner.suffix_skipBlanks
  have hdraft' (l : Lexeme) (rest : List Lexeme) : { p.draft with ahead := l } =
      Draft.alone ⟨l, rest, ending, capacity, code, size, trace⟩ := by rw [hdraft]; rfl
  dsimp only at hyields
  cases hyields with
  | @token _ s' pos t ls _ _ hnext ht hrest =>
    obtain ⟨hsuffix, hshorter⟩ := Scanner.token_suffix (Scanner.next_eq hnext)
    refine .inl ⟨_, _, advance_of_token hnext, rfl, ?_, rfl, hblanks⟩
    exact ⟨hdraft' _ _, hrest, hsuffix, fun _ => hshorter (by simpa using ht), fun _ he => absurd he ht⟩
  | @eof _ s' pos hnext =>
    obtain ⟨hsuffix, -⟩ := Scanner.token_suffix (Scanner.next_eq hnext)
    obtain ⟨hend, hagain⟩ := Scanner.next_eof hnext
    refine .inl ⟨_, _, advance_of_token hnext, rfl, ?_, rfl, hblanks⟩
    exact ⟨hdraft' _ _, .eof hagain, hsuffix, fun hne => absurd rfl hne, fun _ _ => hend⟩
  | stuck hnext => exact .inr ⟨_, _, _, advance_of_error hnext, rfl, rfl⟩

/-- The action looks only at what a pass knows, and moves past nothing. -/
structure Local {α : Type} (x : Drafting α) : Prop where
  ok : ∀ {d a e}, x d.alone = .ok a e → ∃ d', x d = .ok a d' ∧ e = d'.alone ∧ d'.ahead = d.ahead ∧
    d'.rest = d.rest ∧ d'.ending = d.ending
  error : ∀ {d err e}, x d.alone = .error err e → ∃ d', x d = .error err d'

theorem local_token : Local Draft.token where
  ok h := by cases h; exact ⟨_, rfl, rfl, rfl, rfl, rfl⟩
  error h := by cases h

theorem local_here : Local Draft.here where
  ok h := by cases h; exact ⟨_, rfl, rfl, rfl, rfl, rfl⟩
  error h := by cases h

theorem local_reject {α : Type} (expected : Expected) : Local (Draft.reject expected : Drafting α) where
  ok h := by cases h
  error h := by cases h; exact ⟨_, rfl⟩

theorem local_patch (index : Nat) : Local (Draft.patch index) where
  ok h := by cases h; exact ⟨_, rfl, rfl, rfl, rfl, rfl⟩
  error h := by cases h

theorem local_emit (i : Instruction) : Local (Draft.emit i) where
  ok h := by
    obtain ⟨hroom, rfl⟩ := Draft.emit_eq_ok.1 h
    exact ⟨_, Draft.emit_eq_ok.2 ⟨hroom, rfl⟩, rfl, rfl, rfl, rfl⟩
  error {d _ _} h := by
    unfold Draft.emit at h
    split at h
    · cases h
    · next hroom =>
      cases h
      exact ⟨d, if_neg hroom⟩

theorem emitJump_eq (i : Instruction) (d : Draft) :
    Draft.emitJump i d = (Draft.emit i >>= fun _ => pure d.code.size) d := rfl

theorem local_emitJump (i : Instruction) : Local (Draft.emitJump i) where
  ok {d _ _} h := by
    rw [emitJump_eq] at h
    obtain ⟨_, _, hemit, h⟩ := bind_eq_ok.1 h
    obtain ⟨rfl, rfl⟩ := pure_eq_ok.1 h
    obtain ⟨d', hd', hkeeps⟩ := (local_emit i).ok hemit
    exact ⟨d', (emitJump_eq i d).trans (bind_of_ok hd'), hkeeps⟩
  error {d _ _} h := by
    rw [emitJump_eq] at h
    rcases bind_eq_error.1 h with hemit | ⟨_, _, -, h⟩
    · obtain ⟨d', hd'⟩ := (local_emit i).error hemit
      exact ⟨d', (emitJump_eq i d).trans (bind_of_error hd')⟩
    · cases h

/-- What `x` does in a pass, `y` does with the draft that holds it; on the way `x` moves past nothing but
tokens, and given enough depth it does not use it up. -/
structure Echoes {α : Type} (symbols : SymbolTable) (enough : Prop) (x : Passing α) (y : Drafting α)
    (d : Draft) : Prop where
  ok : ∀ {p a p'}, HeldIn symbols p d → x p = .ok a p' →
    ∃ d' ts, y d = .ok a d' ∧ HeldIn symbols p' d' ∧ d.Reads ts d' ∧ MovesPast p ts p'
  error : ∀ {p stop p'}, HeldIn symbols p d → x p = .error stop p' →
    Halts p p' ∧ ((∃ e d', stop = .failed e ∧ y d = .error e d') ∨ stop = .spent ∧ ¬ enough)

namespace Echoes

variable {α β : Type} {enough : Prop} {x : Passing α} {y : Drafting α} {f : α → Passing β}
  {g : α → Drafting β}

theorem mono {enough' : Prop} (h : Echoes symbols enough' x y d) (henough : enough → enough') :
    Echoes symbols enough x y d where
  ok := h.ok
  error hp hx := by
    obtain ⟨hhalts, hfailed | ⟨hspent, hnot⟩⟩ := h.error hp hx
    · exact ⟨hhalts, .inl hfailed⟩
    · exact ⟨hhalts, .inr ⟨hspent, fun he => hnot (henough he)⟩⟩

theorem bind (hx : Echoes symbols enough x y d)
    (hf : ∀ {a d'}, y d = .ok a d' → Echoes symbols enough (f a) (g a) d') :
    Echoes symbols enough (x >>= f) (y >>= g) d where
  ok hp h := by
    obtain ⟨a, p₁, hx₁, hfa⟩ := bind_eq_ok.1 h
    obtain ⟨d₁, ts, hy, hp₁, hreads, hmoves⟩ := hx.ok hp hx₁
    obtain ⟨d₂, us, hg, hp₂, hreads', hmoves'⟩ := (hf hy).ok hp₁ hfa
    exact ⟨d₂, ts ++ us, (bind_of_ok hy).trans hg, hp₂, hreads.trans hreads', hmoves.trans hmoves'⟩
  error hp h := by
    rcases bind_eq_error.1 h with hx₁ | ⟨a, p₁, hx₁, hfa⟩
    · obtain ⟨hhalts, ⟨e, d₁, hstop, hy⟩ | hspent⟩ := hx.error hp hx₁
      · exact ⟨hhalts, .inl ⟨e, d₁, hstop, bind_of_error hy⟩⟩
      · exact ⟨hhalts, .inr hspent⟩
    · obtain ⟨d₁, ts, hy, hp₁, -, hmoves⟩ := hx.ok hp hx₁
      obtain ⟨hhalts, ⟨e, d₂, hstop, hg⟩ | hspent⟩ := (hf hy).error hp₁ hfa
      · exact ⟨hmoves.halts hhalts, .inl ⟨e, d₂, hstop, (bind_of_ok hy).trans hg⟩⟩
      · exact ⟨hmoves.halts hhalts, .inr hspent⟩

theorem pure (a : α) : Echoes symbols enough (Pure.pure a) (Pure.pure a) d where
  ok hp h := by
    obtain ⟨rfl, rfl⟩ := pure_eq_ok.1 h
    exact ⟨d, [], rfl, hp, .of_eq rfl rfl, .refl rfl rfl rfl⟩
  error _ h := by cases h

/-- A rule that has used up its depth did not have enough of it. -/
theorem spent {y : Drafting Unit} {expected : Expected} (h : ¬ enough) :
    Echoes symbols enough (Toolkit.spent expected) y d where
  ok _ hx := by cases hx
  error _ hx := by
    cases hx
    exact ⟨⟨[], _, .refl rfl rfl rfl, .inl rfl⟩, .inr ⟨rfl, h⟩⟩

theorem write (hy : Local y) : Echoes symbols enough (Pass.write y) y d where
  ok {p _ _} hp h := by
    unfold Pass.write at h
    rw [hp.draft] at h
    split at h
    · next a e he =>
      cases h
      obtain ⟨d', hd', rfl, hahead, hrest, hending⟩ := hy.ok he
      refine ⟨d', [], hd', ⟨rfl, ?_, hp.suffix, ?_, ?_⟩, ?_, .refl ?_ rfl rfl⟩
      · rw [hrest, hending]; exact hp.yields
      · rw [hahead]; exact hp.shorter
      · rw [hahead]; exact hp.ended
      · exact .of_eq hending (by rw [Draft.tokens, Draft.tokens, hahead, hrest])
      · rw [hp.ahead]; exact hahead
    · cases h
  error {p _ _} hp h := by
    unfold Pass.write at h
    rw [hp.draft] at h
    split at h
    · cases h
    · next err e he =>
      cases h
      obtain ⟨d', hd'⟩ := hy.error he
      exact ⟨⟨[], p, .refl rfl rfl rfl, .inl rfl⟩, .inl ⟨err, d', rfl, hd'⟩⟩

theorem token_bind {f : Token → Passing β} {g : Token → Drafting β}
    (h : Echoes symbols enough (f d.ahead.token) (g d.ahead.token) d) :
    Echoes symbols enough (Toolkit.token >>= f) (Toolkit.token >>= g) d := by
  refine bind (write local_token) fun h' => ?_
  cases h'
  exact h

theorem advance (hne : d.ahead.token ≠ .eof) :
    Echoes symbols enough Pass.advance Draft.advance d where
  ok {p _ _} hp h := by
    rcases hp.advance with ⟨p', d', hadv, hd', hp', hanswers, htext⟩ | ⟨pos, e, p', hadv, -⟩
    · rw [hadv] at h
      cases h
      refine ⟨d', [d.ahead.token], hd', hp', Draft.reads_advance hd', ?_, ?_, ?_, ?_⟩
      · exact ⟨[d'.ahead.token], hanswers, by rw [hp.ahead, hp'.ahead]; rfl⟩
      · simpa using hne.symm
      · exact htext.trans hp.suffix
      · have hlt := hp.shorter hne
        have hle := htext.length_le
        rw [List.length_singleton]
        omega
    · rw [hadv] at h
      cases h
  error {p _ _} hp h := by
    rcases hp.advance with ⟨p', d', hadv, -⟩ | ⟨pos, e, p', hadv, hd', hanswers⟩
    · rw [hadv] at h
      cases h
    · rw [hadv] at h
      cases h
      refine ⟨⟨[], p, .refl rfl rfl rfl, .inr ⟨?_, e, hanswers⟩⟩, .inl ⟨_, d, rfl, hd'⟩⟩
      rw [hp.ahead]
      exact hne

theorem here : Echoes symbols enough (Pass.write Draft.here) Draft.here d := write local_here

theorem reject (expected : Expected) :
    Echoes symbols enough (Pass.write (Draft.reject expected) : Passing α) (Draft.reject expected) d :=
  write (local_reject expected)

theorem emit (i : Instruction) : Echoes symbols enough (Pass.write (Draft.emit i)) (Draft.emit i) d :=
  write (local_emit i)

theorem emitJump (i : Instruction) :
    Echoes symbols enough (Pass.write (Draft.emitJump i)) (Draft.emitJump i) d :=
  write (local_emitJump i)

theorem patch (index : Nat) :
    Echoes symbols enough (Pass.write (Draft.patch index)) (Draft.patch index) d :=
  write (local_patch index)

theorem expect {t : Token} (ht : t ≠ .eof) :
    Echoes symbols enough (Toolkit.expect t) (Draft.expect t) d := by
  refine token_bind ?_
  split
  · next he => exact advance (he ▸ ht)
  · exact reject _

theorem name (expected : Expected) :
    Echoes symbols enough (Toolkit.name expected) (Draft.name expected) d := by
  refine token_bind ?_
  cases ht : d.ahead.token with
  | ident x slot => exact (advance (by simp [ht])).bind fun _ => pure _
  | _ => exact reject _

theorem between {inner : Passing Unit} {inner' : Drafting Unit} {l r : Token} (hl : l ≠ .eof)
    (hr : r ≠ .eof) (h : ∀ {d'}, d'.left < d.left → Echoes symbols enough inner inner' d') :
    Echoes symbols enough (do Toolkit.expect l; inner; Toolkit.expect r)
      (do Draft.expect l; inner'; Draft.expect r) d :=
  (expect hl).bind fun h₁ => (h (Draft.left_expect h₁ hl)).bind fun _ => expect hr

end Echoes

theorem HeldIn.write {α : Type} {y : Drafting α} {a : α} (h : HeldIn symbols p d) (hy : Local y)
    (hp : Pass.write y p = .ok a p') : ∃ d', HeldIn symbols p' d' := by
  have hechoes : Echoes symbols True (Pass.write y) y d := .write hy
  obtain ⟨d', _, _, hheld, -⟩ := hechoes.ok h hp
  exact ⟨d', hheld⟩

end Pass

end Solo
