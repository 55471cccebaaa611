import Solo.Proofs.Blame
import Solo.Proofs.Lookahead
import Solo.Proofs.Spelling

/-! Errors point at the first token that cannot belong to any program. A token list is viable if a
program with the end of file behind it begins so. The tokens before the one that an error names are
viable, by what the rules fail at. With that token they are not: the rules would fail in the same way
if the source went on as some program does, and they accept all programs. -/

namespace Solo

open Draft Grammar

namespace Grammar

/-- `ts` can be continued to a program with the end of file behind it. -/
def Viable (ts : List Token) : Prop := ∃ s, (Form.rule .program).Derives s ∧ ts <+: s ++ [.eof]

variable {ts us : List Token} {t : Token}

theorem Viable.initial (h : Viable ts) (hus : us <+: ts) : Viable us := by
  obtain ⟨s, hs, hts⟩ := h
  exact ⟨s, hs, hus.trans hts⟩

theorem viable_nil : Viable [] := by
  obtain ⟨s, hs⟩ := Rule.program.exists_derives
  exact ⟨s, hs, List.nil_prefix⟩

theorem viable_of_derives (h : (Form.rule .program).Derives ts) : Viable (ts ++ [.eof]) :=
  ⟨ts, h, List.prefix_refl _⟩

theorem viable_of_begins (h : (Form.rule .program ++ Form.token .eof).Begins us) : Viable us := by
  obtain ⟨vs, hvs⟩ := h
  obtain ⟨s, _, heq, hs, hend⟩ := hvs.seq_inv
  cases hend
  exact ⟨s, hs, vs, heq⟩

/-- The last token of a viable list is the end of file behind a program, or stands in one. -/
theorem Viable.concat_inv (h : Viable (us ++ [t])) :
    t = .eof ∧ (Form.rule .program).Derives us ∨ ∃ vs, (Form.rule .program).Derives (us ++ t :: vs) := by
  obtain ⟨s, hs, hus⟩ := h
  rcases List.prefix_concat_iff.1 hus with heq | ⟨vs, rfl⟩
  · obtain ⟨rfl, hlast⟩ := List.append_inj' heq rfl
    exact .inl ⟨(List.cons.inj hlast).1, hs⟩
  · rw [List.append_assoc] at hs
    exact .inr ⟨vs, hs⟩

theorem Viable.eof_not_mem (h : Viable (us ++ [t])) : .eof ∉ us := by
  intro hmem
  rcases h.concat_inv with ⟨-, hus⟩ | ⟨vs, hvs⟩
  · exact hus.eof_not_mem rfl hmem
  · exact hvs.eof_not_mem rfl (List.mem_append_left _ hmem)

/-- Only a program stands before the end of file. -/
theorem Viable.derives (h : Viable (us ++ [.eof])) : (Form.rule .program).Derives us := by
  rcases h.concat_inv with ⟨-, hus⟩ | ⟨vs, hvs⟩
  · exact hus
  · exact absurd (List.mem_append_right _ List.mem_cons_self) (hvs.eof_not_mem rfl)

/-- No name is written in the form. -/
def Form.nameFree : Form → Bool
  | .token t => t.name?.isNone
  | .seq a b | .choice a b => a.nameFree && b.nameFree
  | .many a => a.nameFree
  | .number | .identifier | .rule _ => true

theorem Rule.nameFree_form (r : Rule) : r.form.nameFree = true := by
  cases r <;> rfl

end Grammar

/-- The token with the slot that `slot` gives to its name. -/
def Token.reslot (slot : String → Nat) : Token → Token
  | .ident name _ => .ident name (slot name)
  | t => t

namespace Grammar

variable {slot : String → Nat} {ts : List Token}

/-- The grammar does not look at slots. -/
theorem Form.Derives.reslot {f : Form} (h : f.Derives ts) :
    f.nameFree = true → f.Derives (ts.map (Token.reslot slot)) := by
  induction h with
  | number value => exact fun _ => .number value
  | identifier name k => exact fun _ => .identifier name (slot name)
  | token t =>
    intro hf
    cases t with
    | ident name k => cases hf
    | _ => exact .token _
  | rule _ ih => exact fun _ => .rule (ih (Rule.nameFree_form _))
  | seq _ _ iha ihb =>
    intro hf
    obtain ⟨ha, hb⟩ := (Bool.and_eq_true _ _).mp hf
    rw [List.map_append]
    exact .seq (iha ha) (ihb hb)
  | left _ ih => exact fun hf => .left (ih ((Bool.and_eq_true _ _).mp hf).1)
  | right _ ih => exact fun hf => .right (ih ((Bool.and_eq_true _ _).mp hf).2)
  | stop => exact fun _ => .stop
  | again _ _ iha ihb =>
    intro hf
    rw [List.map_append]
    exact .again (iha hf) (ihb hf)

theorem slotted_reslot (ts : List Token) : Slotted slot (ts.map (Token.reslot slot)) := by
  intro name k hmem
  obtain ⟨t, -, ht⟩ := List.mem_map.1 hmem
  cases t with
  | ident x j =>
    obtain ⟨rfl, rfl⟩ := Token.ident.inj ht
    rfl
  | _ => cases ht

theorem Slotted.reslot (h : Slotted slot ts) : ts.map (Token.reslot slot) = ts := by
  refine (List.map_congr_left fun t ht => ?_).trans (List.map_id ts)
  cases t with
  | ident name k => rw [Token.reslot, h name k ht, id]
  | _ => rfl

/-- Slotted tokens with which a program begins are those with which a tree begins. -/
theorem exists_tree (h : (Form.rule .program).Derives ts) {us vs : List Token} (hts : ts = us ++ vs)
    (hslots : Slotted slot us) : ∃ (p : Program) (ws : List Token), p.tokens slot = us ++ ws := by
  have hreslot : (Form.rule .program).Derives (ts.map (Token.reslot slot)) := h.reslot rfl
  obtain ⟨p, hp⟩ := sentence_of_derives hreslot (slotted_reslot ts)
  refine ⟨p, vs.map (Token.reslot slot), ?_⟩
  rw [hp, hts, List.map_append, hslots.reslot]

end Grammar

/-- How compiling fails: before the first token, or at `d'`, to which `us` has been read. -/
theorem fails_of_compile {source : String} {capacity : Nat} {error : CompileError}
    (h : compile source capacity = .error error) (hroom : ∀ c, error ≠ .codeOverflow c) :
    (∃ pos e, error = .lexical pos e ∧ (TokenStream.ofSource source).ending = .stuck pos e ∧
      (TokenStream.ofSource source).lexemes = []) ∨
    ∃ d₁ d' us, advance (.start (.ofSource source) capacity) = .ok () d₁ ∧
      Rules.begun (4 * (TokenStream.ofSource source).lexemes.length + 8) d₁ = .error error d' ∧
      d'.Meets error ∧ (Draft.start (.ofSource source) capacity).Reads (.eof :: us) d' ∧
      ∀ t, d'.Wants error t → Viable (us ++ [t]) := by
  obtain ⟨d', hd'⟩ := compile_eq_error.1 h
  rw [Rules.program_eq] at hd'
  rcases bind_eq_error.1 hd' with hadvance | ⟨_, d₁, hadvance, hbegun⟩
  · left
    unfold Draft.advance at hadvance
    split at hadvance
    · cases hadvance
    · cases hadvance
    · next pos e hrest hending =>
      cases hadvance
      exact ⟨pos, e, rfl, hending, hrest⟩
  · right
    rcases (Rules.blames_begun _).fails hbegun with ⟨c, hover⟩ | ⟨hmeets, us, hus, hwants⟩
    · exact absurd hover (hroom c)
    · exact ⟨d₁, d', us, hadvance, hbegun, hmeets, (reads_advance hadvance).trans hus,
        fun t ht => viable_of_begins (hwants t ht)⟩

/-- What has been read of a stream, up to ends of file behind it. -/
theorem Draft.Reads.stream {stream : TokenStream} {capacity : Nat} {us : List Token} {d' : Draft}
    (h : (Draft.start stream capacity).Reads (.eof :: us) d') :
    ∃ k, (0 < k → ∃ pos, stream.ending = .eof pos) ∧
      stream.tokens ++ List.replicate k .eof = us ++ d'.tokens := by
  obtain ⟨k, hk, htokens⟩ := h.tokens
  exact ⟨k, hk, (List.cons.inj htokens).2⟩

theorem viable_of_lexical {source : String} {capacity : Nat} {pos : Position} {e : ScanError}
    (h : compile source capacity = .error (.lexical pos e)) :
    (TokenStream.ofSource source).ending = .stuck pos e ∧
      Viable (TokenStream.ofSource source).tokens := by
  rcases fails_of_compile h nofun with
    ⟨_, _, herror, hending, hnil⟩ | ⟨d₁, d', us, -, -, hmeets, hus, hwants⟩
  · cases herror
    rw [TokenStream.tokens, hnil]
    exact ⟨hending, viable_nil⟩
  · obtain ⟨hrest, hending⟩ := hmeets
    have hstream : (TokenStream.ofSource source).ending = .stuck pos e := hus.ending.symm.trans hending
    refine ⟨hstream, ?_⟩
    obtain ⟨k, hk, htokens⟩ := hus.stream
    -- nothing can be read behind the place at which reading is stuck
    cases k with
    | zero =>
      rw [List.replicate_zero, List.append_nil, Draft.tokens, hrest] at htokens
      rw [htokens]
      exact hwants _ rfl
    | succ k =>
      obtain ⟨_, heof⟩ := hk (Nat.succ_pos k)
      rw [hstream] at heof
      cases heof

section

variable {stream : TokenStream} {capacity n : Nat} {us : List Token} {d₁ d' : Draft}

/-- Where the token stands that is looked at after `us` has been read: in the source, or at its end. -/
theorem Draft.Reads.located (hend : .eof ∉ stream.tokens)
    (hadvance : advance (.start stream capacity) = .ok () d₁)
    (h : (Draft.start stream capacity).Reads (.eof :: us) d') (hus : .eof ∉ us) {j : Nat}
    (hfurther : FurtherBy j d₁ d') :
    (∃ pre post, stream.lexemes = pre ++ d'.ahead :: post ∧ us = pre.map (·.token) ∧ j = pre.length) ∨
      (∃ pos, d'.ahead = ⟨pos, .eof⟩ ∧ stream.ending = .eof pos ∧ us = stream.tokens) := by
  have hstart := (furtherBy_advance hadvance).trans hfurther
  have hahead : stream.lexemes[j]?.or stream.ending.lexeme? = some d'.ahead := hstart.ahead
  obtain ⟨k, hk, htokens⟩ := h.stream
  cases hj : stream.lexemes[j]? with
  | some l =>
    left
    obtain rfl : l = d'.ahead := by
      rw [hj] at hahead
      exact Option.some.inj hahead
    obtain ⟨hlt, hget⟩ := List.getElem?_eq_some_iff.1 hj
    have hlexemes : stream.lexemes = stream.lexemes.take j ++ d'.ahead :: stream.lexemes.drop (j + 1) := by
      rw [← hget, ← List.drop_eq_getElem_cons hlt, List.take_append_drop]
    refine ⟨_, _, hlexemes, ?_, by rw [List.length_take]; omega⟩
    have hrest : d'.rest = stream.lexemes.drop (j + 1) := hstart.rest
    have htail : stream.tokens = (stream.lexemes.take j).map (·.token) ++ d'.tokens := by
      rw [Draft.tokens, hrest, TokenStream.tokens, ← List.map_cons, ← List.map_append, ← hlexemes]
    -- no end of file has been read, so what was read is what stands before the token
    have hcount := congrArg (List.count .eof) htokens
    rw [htail, List.mem_append, not_or] at hend
    rw [htail, List.count_append, List.count_append, List.count_append, List.count_replicate_self,
      List.count_eq_zero.2 hend.1, List.count_eq_zero.2 hend.2, List.count_eq_zero.2 hus] at hcount
    obtain rfl : k = 0 := by omega
    rw [htail, List.replicate_zero, List.append_nil] at htokens
    exact (List.append_cancel_right htokens).symm
  | none =>
    right
    rw [hj, Option.none_or] at hahead
    cases hending : stream.ending with
    | stuck pos error =>
      rw [hending] at hahead
      cases hahead
    | eof pos =>
      rw [hending] at hahead
      have hat : d'.ahead = ⟨pos, .eof⟩ := (Option.some.inj hahead).symm
      refine ⟨pos, hat, rfl, ?_⟩
      rw [Draft.tokens, hat] at htokens
      cases k with
      | zero =>
        rw [List.replicate_zero, List.append_nil] at htokens
        rw [htokens] at hend
        exact absurd (List.mem_append_right _ List.mem_cons_self) hend
      | succ k =>
        rw [List.replicate_succ] at htokens
        rw [← takeWhile_ne_eof hend, htokens, takeWhile_ne_eof hus]

theorem Draft.peek_start (capacity : Nat) {pre post : List Lexeme} {l : Lexeme}
    (h : stream.lexemes = pre ++ l :: post) {i : Nat} (hi : i ≤ pre.length) :
    ∃ l', (pre ++ [l])[i]? = some l' ∧ (Draft.start stream capacity).peek (i + 1) = some l' := by
  have hlt : i < (pre ++ [l]).length := by
    rw [List.length_append, List.length_singleton]
    omega
  refine ⟨_, List.getElem?_eq_getElem hlt, ?_⟩
  have hget : stream.lexemes[i]? = some (pre ++ [l])[i] := by
    rw [h, List.append_cons, List.getElem?_append_left hlt, List.getElem?_eq_getElem hlt]
  change stream.lexemes[i]?.or _ = _
  rw [hget]
  rfl

/-- Streams that go on in the same way up to `l` agree so far. -/
theorem Draft.agreeUpTo_of_shared {other : TokenStream} {c : Nat} {e₁ : Draft}
    {pre post post' : List Lexeme} {l : Lexeme} (h : stream.lexemes = pre ++ l :: post)
    (h' : other.lexemes = pre ++ l :: post') (hc : capacity ≤ c)
    (hadvance : advance (.start stream capacity) = .ok () d₁)
    (hadvance' : advance (.start other c) = .ok () e₁) : AgreeUpTo pre.length d₁ e₁ := by
  refine ⟨fun i hi => ?_, ?_, ?_, ?_⟩
  · obtain ⟨l₁, hget, hl⟩ := peek_start capacity h hi
    obtain ⟨l₂, hget', hl'⟩ := peek_start c h' hi
    obtain rfl : l₁ = l₂ := Option.some.inj (hget.symm.trans hget')
    exact ⟨l₁, by rw [(furtherBy_advance hadvance).peek, hl],
      by rw [(furtherBy_advance hadvance').peek, hl']⟩
  all_goals
    obtain ⟨_, -, rfl⟩ := advance_eq_ok.1 hadvance
    obtain ⟨_, -, rfl⟩ := advance_eq_ok.1 hadvance'
  · rfl
  · rfl
  · exact hc

theorem Draft.left_begun_le (hadvance : advance (.start stream capacity) = .ok () d₁) :
    d₁.left ≤ stream.lexemes.length := by
  have hleft := (reads_advance hadvance).left_eq
  have hstart : (Draft.start stream capacity).left ≤ stream.lexemes.length := by
    have hle := List.countP_le_length (p := (· ≠ .eof)) (l := stream.tokens)
    rw [TokenStream.tokens, List.length_map] at hle
    simpa [Draft.left, Draft.tokens, Draft.start] using hle
  omega

end

section

variable {stream : TokenStream} {capacity n : Nat} {us : List Token} {d₁ d' : Draft} {pos : Position}
  {expected : Expected} {found : Token}
  (hend : .eof ∉ stream.tokens) (hn : 3 * stream.lexemes.length + 2 ≤ n)
  (hadvance : advance (.start stream capacity) = .ok () d₁)
  (hbegun : Rules.begun n d₁ = .error (.misplaced pos expected found) d')
  (hus : (Draft.start stream capacity).Reads (.eof :: us) d') (hfree : .eof ∉ us)
  (hfound : d'.ahead.token ≠ .eof)

include hend hn hadvance hbegun hus hfree hfound

/-- A failure at a token of the source, after `us`, is seen at every draft that goes on in the same way
up to this token. -/
theorem Rules.misplaced_again {m : Nat} (hnm : n ≤ m) :
    ∃ pre post, stream.lexemes = pre ++ d'.ahead :: post ∧ us = pre.map (·.token) ∧
      ∀ {e}, AgreeUpTo pre.length d₁ e → ∃ e', begun m e = .error (.misplaced pos expected found) e' := by
  have hleft := Draft.left_begun_le hadvance
  obtain ⟨j, hfurther, hagain⟩ := (begun_mirrors hnm (by omega)).misplaced hbegun
  rcases hus.located hend hadvance hfree hfurther with ⟨pre, post, hlexemes, heq, rfl⟩ | ⟨_, hahead, -⟩
  · refine ⟨pre, post, hlexemes, heq, fun he => hagain (k := 0) ?_⟩
    rw [Nat.zero_add]
    exact he
  · rw [hahead] at hfound
    exact absurd rfl hfound

/-- The rules do not fail at a token with which a program could go on. -/
theorem Rules.not_viable_of_misplaced {slot : String → Nat} (hslots : Slotted slot stream.tokens) :
    ¬ Viable (us ++ [d'.ahead.token]) := by
  intro hviable
  have hagain {m} := misplaced_again hend hn hadvance hbegun hus hfree hfound (m := m)
  obtain ⟨heof, -⟩ | ⟨vs, hvs⟩ := hviable.concat_inv
  · exact hfound heof
  -- a tree that is written with the tokens up to the one at which the rules fail
  have hprefix : Slotted slot (us ++ [d'.ahead.token]) := by
    obtain ⟨pre, post, hlexemes, rfl, -⟩ := hagain (Nat.le_refl n)
    rw [TokenStream.tokens, hlexemes, List.map_append, List.map_cons, List.append_cons] at hslots
    exact hslots.append.1
  rw [List.append_cons] at hvs
  obtain ⟨p, ws, hp⟩ := exists_tree hvs rfl hprefix
  obtain ⟨pre, post, hlexemes, rfl, hfails⟩ :=
    hagain (Nat.le_max_left n (3 * (p.body.tokens slot).length + 1))
  let other : TokenStream := ⟨pre ++ d'.ahead :: ws.map (⟨{}, ·⟩), .eof {}, stream.symbols⟩
  have htokens : other.tokens = p.tokens slot := by
    rw [hp]
    simp [TokenStream.tokens, other, Function.comp_def]
  obtain ⟨d₂, hok, -⟩ : ∃ d₂, program (m := Drafting) (max n (3 * (p.body.tokens slot).length + 1))
      (.start other (max capacity (width (p.code slot)))) = .ok (_, slot p.param) d₂ ∧ _ :=
    program_of_tree rfl htokens (by omega) (Nat.le_max_right capacity _)
  rw [program_eq] at hok
  obtain ⟨_, e₁, hadvance', hok⟩ := bind_eq_ok.1 hok
  have hagree := Draft.agreeUpTo_of_shared hlexemes rfl (Nat.le_max_left _ _) hadvance hadvance'
  obtain ⟨e', herror⟩ := hfails hagree
  rw [hok] at herror
  cases herror

end

theorem Expected.exists_begins (expected : Expected) : ∃ t, expected.form.Begins [t] := by
  have hsolid : expected.form.solid = true := by cases expected <;> rfl
  obtain ⟨ts, hts⟩ := expected.form.exists_derives
  obtain ⟨t, ts, rfl⟩ := List.exists_cons_of_ne_nil (hts.ne_nil hsolid)
  exact ⟨t, ts, hts⟩

/-- The tokens that reading gives, with the end of file if it is reached. -/
def TokenStream.shown (ls : List Lexeme) (ending : TokenStream.Ending) : List Lexeme :=
  ls ++ ending.lexeme?.toList

@[simp] theorem TokenStream.shown_stuck (ls : List Lexeme) (pos : Position) (e : ScanError) :
    shown ls (.stuck pos e) = ls := List.append_nil ls

/-- A program does not fail but for lack of room. -/
theorem compile_ne_error_of_derives {source : String} {pos : Position}
    (hending : (TokenStream.ofSource source).ending = .eof pos)
    (hderives : (Form.rule .program).Derives (TokenStream.ofSource source).tokens) {capacity : Nat}
    {error : CompileError} (hroom : ∀ c, error ≠ .codeOverflow c) :
    compile source capacity ≠ .error error := by
  intro h
  have hlexes : (Scanner.ofSource source).Lexes _ _ :=
    (TokenStream.ofSource_eof_iff source _ _).2 ⟨⟨pos, hending⟩, rfl, rfl⟩
  obtain ⟨slot, p, hp⟩ : ∃ slot, Sentence slot (TokenStream.ofSource source).tokens :=
    ⟨_, (sentence_iff_derives hlexes).2 hderives⟩
  have hwide := compile_widen_error h hroom (Nat.le_max_left capacity (width (p.code slot)))
  rw [← hp] at hlexes
  rw [compile_of_tree hlexes (Nat.le_max_right _ _)] at hwide
  cases hwide

/-- A token is misplaced if it is the first with which the source is not viable. -/
theorem viable_of_misplaced {source : String} {capacity : Nat} {pos : Position} {expected : Expected}
    {found : Token} (h : compile source capacity = .error (.misplaced pos expected found)) :
    ∃ pre post, TokenStream.shown (TokenStream.ofSource source).lexemes
        (TokenStream.ofSource source).ending = pre ++ ⟨pos, found⟩ :: post ∧
      (∀ t, expected.form.Begins [t] → Viable (pre.map (·.token) ++ [t])) ∧
      ¬ Viable (pre.map (·.token) ++ [found]) := by
  rcases fails_of_compile h nofun with
    ⟨_, _, herror, -⟩ | ⟨d₁, d', us, hadvance, hbegun, hmeets, hus, hwants⟩
  · cases herror
  have hahead : d'.ahead = ⟨pos, found⟩ := hmeets
  have hend := TokenStream.eof_not_mem source
  have hfree : .eof ∉ us := by
    obtain ⟨t, ht⟩ := expected.exists_begins
    exact (hwants t ht).eof_not_mem
  have hleft := Draft.left_begun_le hadvance
  obtain ⟨j, hfurther, -⟩ := (Rules.begun_mirrors (Nat.le_refl _) (by omega)).misplaced hbegun
  rcases hus.located hend hadvance hfree hfurther with
    ⟨pre, post, hlexemes, rfl, -⟩ | ⟨last, hlast, hending, rfl⟩
  · have hfound : d'.ahead.token ≠ .eof := by
      intro he
      rw [TokenStream.tokens, hlexemes, List.map_append, List.map_cons, he] at hend
      exact hend (List.mem_append_right _ List.mem_cons_self)
    have hnot := Rules.not_viable_of_misplaced hend (by omega) hadvance hbegun hus hfree hfound
      (TokenStream.yields_ofSource source).slotIn.2
    rw [hahead] at hlexemes hnot
    exact ⟨pre, _, by rw [TokenStream.shown, hlexemes, List.append_assoc]; rfl, hwants, hnot⟩
  · obtain ⟨rfl, rfl⟩ := Lexeme.mk.inj (hahead.symm.trans hlast)
    refine ⟨(TokenStream.ofSource source).lexemes, [], by rw [TokenStream.shown, hending]; rfl, hwants, ?_⟩
    intro hviable
    exact compile_ne_error_of_derives hending hviable.derives (fun _ he => by cases he) h

/-- What compiles is shown as a program and the end of file. -/
theorem viable_of_compile {source : String} {capacity : Nat} {b : Bytecode}
    (h : compile source capacity = .ok b) :
    (∃ pos, (TokenStream.ofSource source).ending = .eof pos) ∧
      Viable ((TokenStream.shown (TokenStream.ofSource source).lexemes
        (TokenStream.ofSource source).ending).map (·.token)) := by
  obtain ⟨ts, symbols, hlexes, hderives⟩ := derives_of_compile h
  obtain ⟨⟨pos, hending⟩, rfl, -⟩ := (TokenStream.ofSource_eof_iff source _ _).1 hlexes
  refine ⟨⟨pos, hending⟩, ?_⟩
  rw [TokenStream.shown, hending, List.map_append]
  exact viable_of_derives hderives

/-- There is only one place at which a list stops to be viable. -/
theorem eq_of_first_nonviable {pre pre' post post' : List Lexeme} {l l' : Lexeme}
    (heq : pre ++ l :: post = pre' ++ l' :: post') (hpre : Viable (pre.map (·.token)))
    (hl : ¬ Viable (pre.map (·.token) ++ [l.token])) (hpre' : Viable (pre'.map (·.token)))
    (hl' : ¬ Viable (pre'.map (·.token) ++ [l'.token])) : pre = pre' ∧ l = l' := by
  -- a shorter one would stand, with its last token, in the longer
  have hle {ps qs : List Lexeme} {a b : Lexeme} {rs us : List Lexeme}
      (h : ps ++ a :: rs = qs ++ b :: us) (hqs : Viable (qs.map (·.token)))
      (ha : ¬ Viable (ps.map (·.token) ++ [a.token])) : qs.length ≤ ps.length := by
    refine Nat.le_of_not_lt fun hlt => ha (hqs.initial ?_)
    have hprefix : ps ++ [a] <+: qs := by
      have hall : ps ++ [a] <+: ps ++ a :: rs := ⟨rs, by simp⟩
      refine List.prefix_of_prefix_length_le hall ⟨b :: us, h.symm⟩ ?_
      rw [List.length_append, List.length_singleton]
      exact hlt
    simpa using hprefix.map (·.token)
  have hlength : pre.length = pre'.length := Nat.le_antisymm (hle heq.symm hpre hl') (hle heq hpre' hl)
  obtain ⟨rfl, hrest⟩ := List.append_inj heq hlength
  exact ⟨rfl, (List.cons.inj hrest).1⟩

section

variable {source : String} {capacity : Nat}
  (hroom : ∀ c, compile source capacity ≠ .error (.codeOverflow c))

include hroom

/-- If there is room and the source is not viable up to some token, a token is misplaced. -/
theorem misplaced_of_nonviable {pre : List Lexeme}
    (hpre : pre <+: TokenStream.shown (TokenStream.ofSource source).lexemes
      (TokenStream.ofSource source).ending) (hnot : ¬ Viable (pre.map (·.token))) :
    ∃ pos expected found, compile source capacity = .error (.misplaced pos expected found) := by
  cases h : compile source capacity with
  | ok b => exact absurd ((viable_of_compile h).2.initial (hpre.map _)) hnot
  | error error =>
    cases error with
    | lexical pos e =>
      obtain ⟨hending, hviable⟩ := viable_of_lexical h
      rw [hending, TokenStream.shown_stuck] at hpre
      exact absurd (hviable.initial (hpre.map _)) hnot
    | misplaced pos expected found => exact ⟨pos, expected, found, rfl⟩
    | codeOverflow c => exact absurd h (hroom c)

/-- If there is room and all tokens are viable, reading fails where it is stuck. -/
theorem lexical_of_viable {pos : Position} {e : ScanError}
    (hending : (TokenStream.ofSource source).ending = .stuck pos e)
    (hviable : Viable (TokenStream.ofSource source).tokens) :
    compile source capacity = .error (.lexical pos e) := by
  cases h : compile source capacity with
  | ok b =>
    obtain ⟨⟨_, heof⟩, -⟩ := viable_of_compile h
    rw [hending] at heof
    cases heof
  | error error =>
    cases error with
    | lexical pos' e' =>
      have hstuck := hending.symm.trans (viable_of_lexical h).1
      obtain ⟨rfl, rfl⟩ := TokenStream.Ending.stuck.inj hstuck
      rfl
    | misplaced pos' expected found =>
      obtain ⟨pre, post, hshown, -, hnot⟩ := viable_of_misplaced h
      rw [hending, TokenStream.shown_stuck] at hshown
      refine absurd (hviable.initial ?_) hnot
      rw [TokenStream.tokens, hshown, List.map_append, List.map_cons]
      exact ⟨post.map (·.token), by simp⟩
    | codeOverflow c => exact absurd h (hroom c)

end

/-- The tokens of a source stand where they are said to stand. If there is room, compiling fails at the
first of them with which they are not viable, and each token that it asks for instead would be; if
they are viable as far as they can be read, it fails with the error that is met behind them. -/
theorem compile_fails_at_first_nonviable (source : String) :
    ∃ ls ending symbols, (Scanner.ofSource source).Yields ls ending symbols ∧
      TokenStream.LaidOut [] source.toList ls ending ∧
      ∀ capacity, (∀ c, compile source capacity ≠ .error (.codeOverflow c)) →
        ((∃ pos expected found, compile source capacity = .error (.misplaced pos expected found)) ↔
          ∃ pre, pre <+: TokenStream.shown ls ending ∧ ¬ Viable (pre.map (·.token))) ∧
        (∀ pre l post, TokenStream.shown ls ending = pre ++ l :: post →
          Viable (pre.map (·.token)) → ¬ Viable (pre.map (·.token) ++ [l.token]) →
          ∃ expected, compile source capacity = .error (.misplaced l.pos expected l.token) ∧
            (∃ t, expected.form.Begins [t]) ∧
            ∀ t, expected.form.Begins [t] → Viable (pre.map (·.token) ++ [t])) ∧
        ∀ pos error, compile source capacity = .error (.lexical pos error) ↔
          ending = .stuck pos error ∧ Viable (ls.map (·.token)) := by
  have hyields := TokenStream.yields_ofSource source
  refine ⟨_, _, _, hyields, TokenStream.laidOut_of_yields hyields [] rfl, fun capacity hroom => ?_⟩
  refine ⟨⟨?_, ?_⟩, ?_, ?_⟩
  · rintro ⟨pos, expected, found, h⟩
    obtain ⟨pre, post, hshown, -, hnot⟩ := viable_of_misplaced h
    refine ⟨pre ++ [⟨pos, found⟩], ⟨post, by rw [hshown]; simp⟩, ?_⟩
    rw [List.map_append]
    exact hnot
  · rintro ⟨pre, hpre, hnot⟩
    exact misplaced_of_nonviable hroom hpre hnot
  · intro pre l post hshown hviable hnot
    have hprefix : pre ++ [l] <+: TokenStream.shown _ _ := ⟨post, by rw [hshown]; simp⟩
    obtain ⟨pos, expected, found, h⟩ :=
      misplaced_of_nonviable hroom hprefix (by rw [List.map_append]; exact hnot)
    obtain ⟨pre', post', hshown', hclass, hnot'⟩ := viable_of_misplaced h
    obtain ⟨t, ht⟩ := expected.exists_begins
    have hviable' := (hclass t ht).initial (List.prefix_append _ _)
    obtain ⟨rfl, rfl⟩ :=
      eq_of_first_nonviable (hshown.symm.trans hshown') hviable hnot hviable' hnot'
    exact ⟨expected, h, ⟨t, ht⟩, hclass⟩
  · intro pos error
    refine ⟨viable_of_lexical, ?_⟩
    rintro ⟨hending, hviable⟩
    exact lexical_of_viable hroom hending hviable

theorem compile_fails_at_first_nonviable_minus :
    compile "f(n) \x7b\n  while (n > 0)\n    n = n - ;\n\x7d" 64 =
      .error (.misplaced ⟨3, 13⟩ .expression (.punct .semicolon)) ∧
    ∃ ls ending symbols,
      (Scanner.ofSource "f(n) \x7b\n  while (n > 0)\n    n = n - ;\n\x7d").Yields ls ending symbols ∧
      TokenStream.LaidOut [] ("f(n) \x7b\n  while (n > 0)\n    n = n - ;\n\x7d").toList ls ending ∧
      ∃ pre, pre <+: TokenStream.shown ls ending ∧ ¬ Viable (pre.map (·.token)) := by
  have herror := eq_error_of_failure? (show failure? (compile
    "f(n) \x7b\n  while (n > 0)\n    n = n - ;\n\x7d" 64) =
      some (.misplaced ⟨3, 13⟩ .expression (.punct .semicolon)) by decide +kernel)
  obtain ⟨ls, ending, symbols, hyields, hstands, hfails⟩ := compile_fails_at_first_nonviable
    "f(n) \x7b\n  while (n > 0)\n    n = n - ;\n\x7d"
  obtain ⟨hmisplaced, -, -⟩ := hfails 64 fun c hc => by
    rw [herror] at hc
    cases hc
  exact ⟨herror, ls, ending, symbols, hyields, hstands, hmisplaced.1 ⟨_, _, _, herror⟩⟩

end Solo
