import Solo.Compile.Draft
import Solo.Proofs.Actions

/-! Actions on a draft, one at a time: what each reads and what each writes. `Draft.Reads` follows
the tokens alone. Behind the last token of a source the end of file can be read any number of
times, so tokens are compared up to ends of file behind them. -/

namespace Solo

namespace Draft

abbrev expect (t : Token) : Drafting Unit := Toolkit.expect t

abbrev name (expected : Expected) : Drafting Nat := Toolkit.name expected

/-- The token looked at and those behind it, without the end of file. -/
def tokens (d : Draft) : List Token := d.ahead.token :: d.rest.map (·.token)

/-- From `d` to `d'` the tokens `ts` are moved past. -/
structure Reads (d : Draft) (ts : List Token) (d' : Draft) : Prop where
  ending : d'.ending = d.ending
  tokens : ∃ k, (0 < k → ∃ pos, d.ending = .eof pos) ∧
    d.tokens ++ List.replicate k .eof = ts ++ d'.tokens

variable {d d₁ d' : Draft} {ts us : List Token}

theorem Reads.of_eq (he : d'.ending = d.ending) (ht : d'.tokens = d.tokens) : d.Reads [] d' :=
  ⟨he, 0, fun h => absurd h (Nat.lt_irrefl 0), by simp [ht]⟩

theorem Reads.trans (h : d.Reads ts d₁) (h' : d₁.Reads us d') : d.Reads (ts ++ us) d' := by
  obtain ⟨he, j, hj, hts⟩ := h
  obtain ⟨he', k, hk, hus⟩ := h'
  refine ⟨he'.trans he, j + k, fun hpos => ?_, ?_⟩
  · rcases Nat.eq_zero_or_pos j with rfl | hj0
    · exact he ▸ hk (by omega)
    · exact hj hj0
  · rw [← List.replicate_append_replicate, ← List.append_assoc, hts, List.append_assoc, hus,
      List.append_assoc]

/-- Writing code reads nothing. -/
theorem Reads.writing (h : d.Reads ts d₁) (h' : d₁.Reads [] d') : d.Reads ts d' := by
  simpa using h.trans h'

theorem token_bind {α : Type} (f : Token → Drafting α) :
    (Toolkit.token >>= f) d = f d.ahead.token d := bind_of_ok rfl

theorem reads_advance (h : advance d = .ok () d') : d.Reads [d.ahead.token] d' := by
  unfold advance at h
  split at h
  · next l rest hrest =>
    cases h
    exact ⟨rfl, 0, fun h => absurd h (Nat.lt_irrefl 0), by simp [tokens, hrest]⟩
  · next pos hrest hending =>
    cases h
    exact ⟨rfl, 1, fun _ => ⟨pos, hending⟩, by simp [tokens, hrest]⟩
  · cases h

theorem reject_ne_ok {α : Type} {expected : Expected} {a : α} : reject expected d ≠ .ok a d' := by
  simp [reject]

theorem reads_expect {t : Token} (h : expect t d = .ok () d') : d.Reads [t] d' := by
  rw [expect, Toolkit.expect, token_bind] at h
  split at h
  · next ht => exact ht ▸ reads_advance h
  · exact absurd h reject_ne_ok

theorem reads_name {expected : Expected} {k : Nat} (h : name expected d = .ok k d') :
    ∃ x, d.Reads [.ident x k] d' := by
  rw [name, Toolkit.name, token_bind] at h
  cases ht : d.ahead.token with
  | ident x slot =>
    rw [ht] at h
    obtain ⟨_, _, hadv, hpure⟩ := bind_eq_ok.1 h
    obtain ⟨rfl, rfl⟩ := pure_eq_ok.1 hpure
    exact ⟨x, ht ▸ reads_advance hadv⟩
  | _ =>
    rw [ht] at h
    exact absurd h reject_ne_ok

theorem emit_eq_ok {i : Instruction} : emit i d = .ok () d' ↔
    d.size + i.width ≤ d.capacity ∧ d' = { d with
      code := d.code.push i, size := d.size + i.width, trace := d.trace.push (d.size, i) } := by
  unfold emit
  split
  · next h => simp [h, eq_comm]
  · next h => simp [h]

theorem reads_emit {i : Instruction} (h : emit i d = .ok () d') : d.Reads [] d' := by
  obtain ⟨-, rfl⟩ := emit_eq_ok.1 h
  exact .of_eq rfl rfl

theorem reads_emitJump {i : Instruction} {index : Nat} (h : emitJump i d = .ok index d') :
    d.Reads [] d' := by
  obtain ⟨_, _, hget, h⟩ := bind_eq_ok.1 h
  cases hget
  obtain ⟨_, _, hemit, h⟩ := bind_eq_ok.1 h
  obtain ⟨-, rfl⟩ := pure_eq_ok.1 h
  exact reads_emit hemit

theorem reads_patch {index : Nat} (h : patch index d = .ok () d') : d.Reads [] d' := by
  cases h
  exact .of_eq rfl rfl

end Draft

namespace Rules

/-- The operators are punctuation. -/
def Punctual (op? : Token → Option Arith) : Prop := ∀ {t op}, op? t = some op → ∃ p, t = .punct p

theorem Punctual.ne_eof {op? : Token → Option Arith} {t : Token} {op : Arith} (h : Punctual op?)
    (hop : op? t = some op) : t ≠ .eof := by
  obtain ⟨p, rfl⟩ := h hop
  exact Token.noConfusion

theorem punctual_additive : Punctual additive? := by
  intro t op h
  unfold additive? at h
  split at h
  · exact ⟨_, rfl⟩
  · exact ⟨_, rfl⟩
  · cases h

theorem punctual_multiplicative : Punctual multiplicative? := by
  intro t op h
  unfold multiplicative? at h
  split at h
  · exact ⟨_, rfl⟩
  · exact ⟨_, rfl⟩
  · cases h

end Rules

end Solo
