import Solo.Log
import Solo.Proofs.Capacity

/-! What the compiler reports while it works. There is a record for each instruction, with the address
that it has in the code and as it was written first. What it becomes later differs from that only in
the targets of jumps forward: they are patched, and only they, whether compiling succeeds or not. -/

namespace Solo

open Bytecode (addressedFrom)
open Draft

namespace Instruction

/-- The instruction at `addr` as it was before a jump forward was given its target. -/
def unpatched (addr : Nat) : Instruction → Instruction
  | .branch test _ => .branch test 0
  | .goto target => .goto (if addr < target then 0 else target)
  | i => i

/-- The instruction is a jump that waits for its target. -/
def Waits (i : Instruction) : Prop := (∃ test, i = .branch test 0) ∨ i = .goto 0

theorem unpatched_retarget {i : Instruction} {addr target : Nat} (h : (i.unpatched addr).Waits)
    (hlt : addr < target) : (i.retarget target).unpatched addr = i.unpatched addr := by
  cases i with
  | branch test _ => rfl
  | goto _ =>
    rcases h with ⟨_, hbranch⟩ | hgoto
    · cases hbranch
    · rw [hgoto, retarget, unpatched, if_pos hlt]
  | call _ => rcases h with ⟨_, hbranch⟩ | hgoto <;> contradiction
  | _ => rfl

end Instruction

/-- Code with its addresses, as it was written first. -/
def unpatched (is : List Instruction) : List (Nat × Instruction) :=
  (addressedFrom 0 is).map fun p => (p.1, p.2.unpatched p.1)

theorem length_unpatched (is : List Instruction) : (unpatched is).length = is.length := by
  rw [unpatched, List.length_map, length_addressedFrom]

theorem unpatched_split (pre post : List Instruction) (i : Instruction) :
    unpatched (pre ++ i :: post) = unpatched pre ++ (width pre, i.unpatched (width pre)) ::
      (addressedFrom (width pre + i.width) post).map fun p => (p.1, p.2.unpatched p.1) := by
  rw [unpatched, addressedFrom_append, List.map_append, Nat.zero_add]
  rfl

namespace Draft

/-- The trace tells how the code was written first. -/
structure Traced (d : Draft) : Prop where
  fits : d.Fits
  trace : d.trace.toList = unpatched d.code.toList

/-- The jump at `index` has been written without its target. -/
def Waiting (index : Nat) (d : Draft) : Prop :=
  ∃ before addr i after, d.trace.toList = before ++ (addr, i) :: after ∧ before.length = index ∧ i.Waits

/-- From `d` on code has been written, and the trace of `d'` tells how. -/
structure Onward (d d' : Draft) : Prop where
  traced : d'.Traced
  capacity : d'.capacity = d.capacity
  size : d.size ≤ d'.size
  grows : d.trace.toList <+: d'.trace.toList

variable {d d₁ d' : Draft} {index : Nat}

theorem Onward.refl (h : d.Traced) : d.Onward d :=
  ⟨h, rfl, Nat.le_refl _, List.prefix_refl _⟩

theorem Onward.trans (h : d.Onward d₁) (h' : d₁.Onward d') : d.Onward d' :=
  ⟨h'.traced, h'.capacity.trans h.capacity, Nat.le_trans h.size h'.size, h.grows.trans h'.grows⟩

theorem Waiting.onward (h : d.Waiting index) (h' : d.Onward d') : d'.Waiting index := by
  obtain ⟨before, addr, i, after, htrace, hindex, hwaits⟩ := h
  obtain ⟨new, hnew⟩ := h'.grows
  refine ⟨before, addr, i, after ++ new, ?_, hindex, hwaits⟩
  rw [← hnew, htrace, List.append_assoc, List.cons_append]

/-- The code is split at a jump that waits. -/
theorem Waiting.split (h : d.Waiting index) (ht : d.Traced) : ∃ pre i post,
    d.code.toList = pre ++ i :: post ∧ pre.length = index ∧ (i.unpatched (width pre)).Waits := by
  obtain ⟨before, addr, i, after, htrace, rfl, hwaits⟩ := h
  rw [ht.trace] at htrace
  have hlt : before.length < d.code.toList.length := by
    rw [← length_unpatched, htrace, List.length_append, List.length_cons]
    omega
  have hsplit : d.code.toList = d.code.toList.take before.length ++
      d.code.toList[before.length] :: d.code.toList.drop (before.length + 1) := by
    rw [← List.drop_eq_getElem_cons hlt, List.take_append_drop]
  have hlength : (d.code.toList.take before.length).length = before.length := by
    rw [List.length_take]
    omega
  refine ⟨_, _, _, hsplit, hlength, ?_⟩
  rw [hsplit, unpatched_split] at htrace
  obtain ⟨-, hhead⟩ := List.append_inj htrace (by rw [length_unpatched, hlength])
  rw [(Prod.mk.inj (List.cons.inj hhead).1).2]
  exact hwaits

theorem onward_emit {i : Instruction} (h : d.Traced) (hi : i.unpatched d.size = i)
    (hemit : emit i d = .ok () d') : d.Onward d' := by
  have hfits := (Scales.emit i).fits hemit h.fits
  obtain ⟨-, rfl⟩ := emit_eq_ok.1 hemit
  refine ⟨⟨hfits, ?_⟩, rfl, Nat.le_add_right _ _, ?_⟩
  · rw [Array.toList_push, Array.toList_push, unpatched_split, ← h.fits.size_eq, hi, h.trace]
    rfl
  · rw [Array.toList_push]
    exact List.prefix_append _ _

/-- Only the target of the jump changes, which the trace does not tell. -/
theorem onward_patch (h : d.Traced) (hwaiting : d.Waiting index) (hpatch : patch index d = .ok () d') :
    d.Onward d' := by
  have hfits := (Scales.patch index).fits hpatch h.fits
  obtain ⟨pre, i, post, hcode, rfl, hwaits⟩ := hwaiting.split h
  cases hpatch
  refine ⟨⟨hfits, ?_⟩, rfl, Nat.le_refl _, List.prefix_refl _⟩
  have hlt : width pre < d.size := by
    have hpos := i.width_pos
    rw [h.fits.size_eq, hcode, width_append, width_cons]
    omega
  have hpatched : (d.code.modify pre.length (Instruction.retarget d.size)).toList =
      pre ++ i.retarget d.size :: post := by
    rw [Array.toList_modify, hcode, List.modify_eq_take_drop, List.take_left, List.drop_left,
      List.modifyHead_cons]
  rw [hpatched, unpatched_split, Instruction.unpatched_retarget hwaits hlt, Instruction.width_retarget,
    ← unpatched_split, ← hcode]
  exact h.trace

/-- At the start nothing is written and nothing traced. -/
theorem traced_start (stream : TokenStream) (capacity : Nat) : (start stream capacity).Traced :=
  ⟨⟨rfl, Nat.zero_le _⟩, rfl⟩

end Draft

/-- The action goes onward from `d` whether it succeeds or fails, and if it succeeds `Q` holds. -/
structure Leads {α : Type} (d : Draft) (x : Drafting α) (Q : α → Draft → Prop) : Prop where
  ok : ∀ {a d'}, x d = .ok a d' → d.Onward d' ∧ Q a d'
  error : ∀ {e d'}, x d = .error e d' → d.Onward d'

/-- The action goes onward wherever the trace tells how the code was written. -/
def Tracing {α : Type} (x : Drafting α) : Prop := ∀ d, d.Traced → Leads d x fun _ _ => True

namespace Leads

variable {α β : Type} {d : Draft} {x : Drafting α} {f : α → Drafting β} {Q : α → Draft → Prop}
  {R : β → Draft → Prop} {index : Nat}

theorem bind (hx : Leads d x Q) (hf : ∀ a d₁, d.Onward d₁ → Q a d₁ → Leads d₁ (f a) R) :
    Leads d (x >>= f) R where
  ok h := by
    obtain ⟨a, d₁, h₁, h₂⟩ := bind_eq_ok.1 h
    obtain ⟨honward, hQ⟩ := hx.ok h₁
    obtain ⟨honward', hR⟩ := (hf a d₁ honward hQ).ok h₂
    exact ⟨honward.trans honward', hR⟩
  error h := by
    rcases bind_eq_error.1 h with h | ⟨a, d₁, h₁, h₂⟩
    · exact hx.error h
    · obtain ⟨honward, hQ⟩ := hx.ok h₁
      exact honward.trans ((hf a d₁ honward hQ).error h₂)

theorem reject (ht : d.Traced) (expected : Expected) : Leads d (Draft.reject expected) Q where
  ok h := absurd h reject_ne_ok
  error h := by
    cases h
    exact .refl ht

theorem here (ht : d.Traced) : Leads d Draft.here fun top d' => top ≤ d'.size where
  ok h := by
    cases h
    exact ⟨.refl ht, Nat.le_refl _⟩
  error h := by cases h

theorem emit {i : Instruction} (ht : d.Traced) (hi : i.unpatched d.size = i) :
    Leads d (Draft.emit i) fun _ _ => True where
  ok h := ⟨onward_emit ht hi h, trivial⟩
  error h := by
    unfold Draft.emit at h
    split at h
    · cases h
    · cases h
      exact .refl ht

/-- A jump that is written without its target waits for it. -/
theorem emitJump {i : Instruction} (ht : d.Traced) (hi : i.unpatched d.size = i) (hwaits : i.Waits) :
    Leads d (Draft.emitJump i) Waiting := by
  have hjump : Draft.emitJump i d = (Draft.emit i >>= fun _ => pure d.code.size) d := rfl
  refine ⟨fun h => ?_, fun h => ?_⟩
  · obtain ⟨_, _, hemit, hpure⟩ := bind_eq_ok.1 (hjump ▸ h)
    obtain ⟨rfl, rfl⟩ := pure_eq_ok.1 hpure
    refine ⟨onward_emit ht hi hemit, ?_⟩
    obtain ⟨-, rfl⟩ := emit_eq_ok.1 hemit
    refine ⟨d.trace.toList, d.size, i, [], Array.toList_push, ?_, hwaits⟩
    rw [ht.trace, length_unpatched, Array.length_toList]
  · rcases bind_eq_error.1 (hjump ▸ h) with h | ⟨_, _, _, hpure⟩
    · exact (emit ht hi).error h
    · cases hpure

theorem patch (ht : d.Traced) (hwaiting : d.Waiting index) :
    Leads d (Draft.patch index) fun _ _ => True where
  ok h := ⟨onward_patch ht hwaiting h, trivial⟩
  error h := by cases h

end Leads

namespace Tracing

variable {α β : Type} {x : Drafting α} {f : α → Drafting β}

theorem bind (hx : Tracing x) (hf : ∀ a, Tracing (f a)) : Tracing (x >>= f) :=
  fun d ht => (hx d ht).bind fun a d₁ h₁ _ => hf a d₁ h₁.traced

theorem pure (a : α) : Tracing (Pure.pure a : Drafting α) := by
  refine fun d ht => ⟨fun h => ?_, fun h => ?_⟩
  · cases h
    exact ⟨.refl ht, trivial⟩
  · cases h

theorem token : Tracing Draft.token := by
  refine fun d ht => ⟨fun h => ?_, fun h => ?_⟩
  · cases h
    exact ⟨.refl ht, trivial⟩
  · cases h

theorem reject (expected : Expected) : Tracing (Draft.reject expected : Drafting α) :=
  fun _ ht => .reject ht expected

theorem advance : Tracing Draft.advance := by
  intro d ht
  have honward (ahead : Lexeme) (rest : List Lexeme) : d.Onward { d with ahead, rest } :=
    ⟨⟨⟨ht.fits.size_eq, ht.fits.size_le⟩, ht.trace⟩, rfl, Nat.le_refl _, List.prefix_refl _⟩
  refine ⟨fun h => ?_, fun h => ?_⟩
  all_goals
    unfold Draft.advance at h
    split at h <;> cases h
  · exact ⟨honward _ _, trivial⟩
  · exact ⟨honward _ _, trivial⟩
  · exact honward _ _

theorem emit {i : Instruction} (hi : ∀ addr, i.unpatched addr = i) : Tracing (Draft.emit i) :=
  fun d ht => .emit ht (hi d.size)

theorem expect (t : Token) : Tracing (Draft.expect t) := by
  refine token.bind fun _ => ?_
  split
  · exact advance
  · exact reject _

theorem name (expected : Expected) : Tracing (Draft.name expected) := by
  refine token.bind fun _ => ?_
  split
  · exact advance.bind fun _ => pure _
  · exact reject _

theorem parens {inner : Drafting Unit} (h : Tracing inner) : Tracing (Rules.parens inner) :=
  (expect _).bind fun _ => h.bind fun _ => expect _

theorem braces {inner : Drafting Unit} (h : Tracing inner) : Tracing (Rules.braces inner) :=
  (expect _).bind fun _ => h.bind fun _ => expect _

end Tracing

namespace Rules

structure ExpressionsTracing (entry n : Nat) : Prop where
  expression : Tracing (expression entry n)
  term : Tracing (term entry n)
  operations : ∀ op?, Tracing (operations op? entry n)
  factor : Tracing (factor entry n)

theorem expressions_tracing (entry n : Nat) : ExpressionsTracing entry n := by
  induction n with
  | zero => exact ⟨.reject _, .reject _, fun _ => .reject _, .reject _⟩
  | succ n ih =>
    refine ⟨?_, ?_, fun op? => ?_, ?_⟩
    · rw [expression]
      exact ih.term.bind fun _ => ih.operations _
    · rw [term]
      exact ih.factor.bind fun _ => ih.operations _
    · rw [operations]
      refine Tracing.token.bind fun t => ?_
      split
      · exact Tracing.advance.bind fun _ => ih.term.bind fun _ =>
          (Tracing.emit fun _ => rfl).bind fun _ => ih.operations op?
      · exact .pure _
    · rw [factor]
      refine Tracing.token.bind fun t => ?_
      split
      · exact ih.expression.parens
      · exact (Tracing.emit fun _ => rfl).bind fun _ => .advance
      · refine Tracing.advance.bind fun _ => Tracing.token.bind fun t => ?_
        split
        · exact ih.expression.parens.bind fun _ => .emit fun _ => rfl
        · exact .emit fun _ => rfl
      · exact .reject _

/-- The jump that a condition gives waits for its target. -/
theorem condition_leads (entry n : Nat) {d : Draft} (ht : d.Traced) :
    Leads d (condition entry n) Waiting := by
  have hexpr := (expressions_tracing entry n).expression
  refine (Tracing.expect _ d ht).bind fun _ d₁ h₁ _ => (hexpr d₁ h₁.traced).bind fun _ d₂ h₂ _ =>
    (Tracing.token d₂ h₂.traced).bind fun t d₃ h₃ _ => ?_
  split
  · refine (Tracing.advance d₃ h₃.traced).bind fun _ d₄ h₄ _ =>
      (hexpr d₄ h₄.traced).bind fun _ d₅ h₅ _ => (Tracing.expect _ d₅ h₅.traced).bind fun _ d₆ h₆ _ => ?_
    exact .emitJump h₆.traced rfl (.inl ⟨_, rfl⟩)
  · exact .reject h₃.traced _

structure StatementsTracing (entry n : Nat) : Prop where
  statement : Tracing (statement entry n)
  statements : Tracing (statements entry n)

theorem statements_tracing (entry n : Nat) : StatementsTracing entry n := by
  induction n with
  | zero => exact ⟨.reject _, .reject _⟩
  | succ n ih =>
    have hexpr := (expressions_tracing entry n).expression
    refine ⟨?_, ?_⟩
    · rw [statement]
      refine Tracing.token.bind fun t => ?_
      split
      · exact Tracing.advance.bind fun _ => (Tracing.expect _).bind fun _ => hexpr.bind fun _ =>
          (Tracing.emit fun _ => rfl).bind fun _ => .expect _
      · refine Tracing.advance.bind fun _ d ht => ?_
        refine (condition_leads entry n ht).bind fun skipThen d₁ h₁ hthen => ?_
        refine (ih.statement d₁ h₁.traced).bind fun _ d₂ h₂ _ => ?_
        refine (Leads.emitJump h₂.traced rfl (.inr rfl)).bind fun skipElse d₃ h₃ helse => ?_
        refine (Tracing.expect _ d₃ h₃.traced).bind fun _ d₄ h₄ _ => ?_
        refine (Leads.patch h₄.traced (hthen.onward (h₂.trans (h₃.trans h₄)))).bind fun _ d₅ h₅ _ => ?_
        refine (ih.statement d₅ h₅.traced).bind fun _ d₆ h₆ _ => ?_
        exact .patch h₆.traced (helse.onward (h₄.trans (h₅.trans h₆)))
      · refine Tracing.advance.bind fun _ d ht => ?_
        refine (Leads.here ht).bind fun top d₁ h₁ htop => ?_
        refine (condition_leads entry n h₁.traced).bind fun exit d₂ h₂ hexit => ?_
        refine (ih.statement d₂ h₂.traced).bind fun _ d₃ h₃ _ => ?_
        -- the jump back is written with its target, which is not ahead of it
        have hback : (Instruction.goto top).unpatched d₃.size = .goto top := by
          have hgrown := (h₂.trans h₃).size
          rw [Instruction.unpatched, if_neg (by omega)]
        refine (Leads.emit h₃.traced hback).bind fun _ d₄ h₄ _ => ?_
        exact .patch h₄.traced (hexit.onward (h₃.trans h₄))
      · exact Tracing.advance.bind fun _ => hexpr.bind fun _ => (Tracing.emit fun _ => rfl).bind fun _ =>
          .expect _
      · exact ih.statements.braces
      · exact .advance
      · exact .reject _
    · rw [statements]
      refine Tracing.token.bind fun t => ?_
      split
      · exact .pure _
      · exact ih.statement.bind fun _ => ih.statements

theorem function_tracing (entry n : Nat) : Tracing (function entry n) :=
  (Tracing.name _).bind fun _ => (Tracing.expect _).bind fun _ => (Tracing.name _).bind fun _ =>
    (Tracing.expect _).bind fun _ => (statements_tracing entry n).statements.braces.bind fun _ =>
    (Tracing.emit fun _ => rfl).bind fun _ => .pure _

theorem opening_tracing (n : Nat) : Tracing (opening n) := by
  refine (Tracing.emit fun _ => rfl).bind fun _ => (Tracing.emit fun _ => rfl).bind fun _ d ht => ?_
  refine (Leads.here ht).bind fun entry d₁ h₁ _ => ?_
  exact (function_tracing entry n).bind (fun _ => .pure _) d₁ h₁.traced

theorem program_tracing (n : Nat) : Tracing (program n) :=
  Tracing.advance.bind fun _ => (opening_tracing n).bind fun _ =>
    (Tracing.expect _).bind fun _ => .pure _

end Rules

/-- The texts of the trace records of `origin`. -/
def Log.traceTexts (origin : Log.Origin) (records : List Log.Record) : List String :=
  (records.filter fun r => r.level = .trace ∧ r.origin = origin).map (·.text)

/-- An instruction behind its address, as it was written first. -/
def Instruction.unpatchedLine (addr : Nat) (i : Instruction) : String :=
  Column.alignRight 4 (toString addr) ++ "  " ++ (i.unpatched addr).text

namespace Compilation

variable {source : String} {capacity : Nat} {d : Draft}

theorem traceTexts_log (c : Compilation) :
    Log.traceTexts .compiler c.log = c.trace.map fun p => p.2.line p.1 := by
  rw [Log.traceTexts, log, List.filter_append, List.filter_eq_self.2, List.map_append, List.map_map]
  · cases c.result <;> exact List.append_nil _
  · intro r hr
    obtain ⟨p, -, rfl⟩ := List.mem_map.1 hr
    rfl

/-- However compiling ends, its records tell of the code that is left. -/
theorem traceTexts_of_program
    (h : (∃ start, Rules.program (m := Drafting) (4 * (TokenStream.ofSource source).lexemes.length + 8)
        (.start (.ofSource source) capacity) = .ok start d) ∨
      ∃ e, Rules.program (m := Drafting) (4 * (TokenStream.ofSource source).lexemes.length + 8)
        (.start (.ofSource source) capacity) = .error e d) :
    (Draft.start (.ofSource source) capacity).Onward d ∧
      Log.traceTexts .compiler (ofSource source capacity).log =
        (addressedFrom 0 d.code.toList).map fun p => p.2.unpatchedLine p.1 := by
  have hleads := Rules.program_tracing (4 * (TokenStream.ofSource source).lexemes.length + 8)
    (.start (.ofSource source) capacity) (traced_start _ _)
  have hleft : (Draft.start (.ofSource source) capacity).Onward d ∧
      (ofSource source capacity).trace = d.trace.toList := by
    rcases h with ⟨⟨entry, param⟩, h⟩ | ⟨e, h⟩
    · exact ⟨(hleads.ok h).1, by simp only [ofSource, h]⟩
    · exact ⟨hleads.error h, by simp only [ofSource, h]⟩
  obtain ⟨honward, htrace⟩ := hleft
  refine ⟨honward, ?_⟩
  rw [traceTexts_log, htrace, honward.traced.trace, unpatched, List.map_map]
  rfl

/-- The trace is the listing before patching. Of code that compiles it has a record for each
instruction, with its address and as it was before jumps forward were given their targets. Of a source
that does not compile it has the records of what was written before the failure. -/
theorem trace_is_listing_before_patching (source : String) (capacity : Nat) :
    (∀ b, compile source capacity = .ok b →
      Log.traceTexts .compiler (ofSource source capacity).log =
        b.addressed.map fun p => p.2.unpatchedLine p.1) ∧
    ∀ e, compile source capacity = .error e → ∃ d,
      Rules.program (m := Drafting) (4 * (TokenStream.ofSource source).lexemes.length + 8)
        (.start (.ofSource source) capacity) = .error e d ∧
      (Log.traceTexts .compiler (ofSource source capacity).log).length = d.code.size ∧
      ∀ pre i post, d.code.toList = pre ++ i :: post →
        (Log.traceTexts .compiler (ofSource source capacity).log)[pre.length]? =
          some (i.unpatchedLine (width pre)) ∧ width pre + i.width ≤ capacity := by
  refine ⟨fun b hb => ?_, fun e he => ?_⟩
  · obtain ⟨entry, param, d, hd, rfl⟩ := compile_eq_ok.1 hb
    exact (traceTexts_of_program (.inl ⟨_, hd⟩)).2
  · obtain ⟨d, hd⟩ := compile_eq_error.1 he
    obtain ⟨honward, htexts⟩ := traceTexts_of_program (.inr ⟨e, hd⟩)
    refine ⟨d, hd, ?_, fun pre i post hcode => ⟨?_, ?_⟩⟩
    · rw [htexts, List.length_map, length_addressedFrom, Array.length_toList]
    · rw [htexts, List.getElem?_map, hcode, getElem?_addressedFrom, Nat.zero_add]
      rfl
    · have hsize := honward.traced.fits.size_eq
      have hle := honward.traced.fits.size_le
      rw [honward.capacity] at hle
      rw [hcode, width_append, width_cons] at hsize
      change d.size ≤ capacity at hle
      omega

/-- A loop in a branch, with room for all of the code, and without room for the condition of the
loop. -/
theorem trace_is_listing_before_patching_branches :
    Log.traceTexts .compiler (ofSource "f(n) \x7b if (n > 0) n = 0; else while (n < 3) ; \x7d" 30).log =
      ["   0  CALL 3", "   2  STOP", "   3  LOAD 1", "   5  PUSH 0", "   7  IF_CMPLE 0", "   9  PUSH 0",
        "  11  STORE 1", "  13  GOTO 0", "  15  LOAD 1", "  17  PUSH 3", "  19  IF_CMPGE 0",
        "  21  GOTO 15", "  23  NOP"] ∧
    ∃ d pre i, Rules.program (m := Drafting) (4 * (TokenStream.ofSource
          "f(n) \x7b if (n > 0) n = 0; else while (n < 3) ; \x7d").lexemes.length + 8)
        (.start (.ofSource "f(n) \x7b if (n > 0) n = 0; else while (n < 3) ; \x7d") 18) =
          .error (.codeOverflow 18) d ∧
      d.code.toList = pre ++ [i] ∧ i.unpatchedLine (width pre) = "  15  LOAD 1" ∧
      width pre + i.width ≤ 18 := by
  have hlines : (compile "f(n) \x7b if (n > 0) n = 0; else while (n < 3) ; \x7d" 30).toOption.map
      (fun b => b.addressed.map fun p => p.2.unpatchedLine p.1) =
      some ["   0  CALL 3", "   2  STOP", "   3  LOAD 1", "   5  PUSH 0", "   7  IF_CMPLE 0",
        "   9  PUSH 0", "  11  STORE 1", "  13  GOTO 0", "  15  LOAD 1", "  17  PUSH 3",
        "  19  IF_CMPGE 0", "  21  GOTO 15", "  23  NOP"] := by
    decide +kernel
  have hoverflow : failure? (compile "f(n) \x7b if (n > 0) n = 0; else while (n < 3) ; \x7d" 18) =
      some (.codeOverflow 18) := by
    decide +kernel
  have hlast : (Log.traceTexts .compiler
      (ofSource "f(n) \x7b if (n > 0) n = 0; else while (n < 3) ; \x7d" 18).log).getLast? =
      some "  15  LOAD 1" := by
    decide +kernel
  refine ⟨?_, ?_⟩
  · obtain ⟨b, hb, hlines⟩ := Option.map_eq_some_iff.1 hlines
    rw [← hlines]
    exact (trace_is_listing_before_patching _ 30).1 b (eq_ok_of_toOption hb)
  · obtain ⟨d, hd, hlength, hlines⟩ :=
      (trace_is_listing_before_patching _ 18).2 _ (eq_error_of_failure? hoverflow)
    rcases List.eq_nil_or_concat d.code.toList with hnil | ⟨pre, i, hcode⟩
    · rw [← Array.length_toList, hnil] at hlength
      rw [List.length_eq_zero_iff.1 hlength] at hlast
      cases hlast
    · rw [List.concat_eq_append] at hcode
      obtain ⟨hline, hroom⟩ := hlines pre i [] hcode
      refine ⟨d, pre, i, hd, hcode, ?_, hroom⟩
      rw [List.getLast?_eq_getElem?, hlength, ← Array.length_toList, hcode, List.length_append,
        List.length_singleton, Nat.add_sub_cancel, hline] at hlast
      exact Option.some.inj hlast

end Compilation

end Solo
