import Solo.Proofs.Compilation

/-! What is left to read. The rules of the grammar derive no empty list, so whatever a rule moves past
holds a token that is not the end of file, and fewer of them are left behind it. -/

namespace Solo

open Draft Grammar

namespace Grammar

/-- Every list that the form derives has a token. -/
def Form.solid : Form → Bool
  | .number | .identifier | .token _ | .rule _ => true
  | .seq a b => a.solid || b.solid
  | .choice a b => a.solid && b.solid
  | .many _ => false

theorem Rule.solid_form (r : Rule) : r.form.solid = true := by
  cases r <;> rfl

theorem Form.Derives.ne_nil {f : Form} {ts : List Token} (h : f.Derives ts) :
    f.solid = true → ts ≠ [] := by
  induction h with
  | number value => exact fun _ => List.cons_ne_nil _ _
  | identifier name k => exact fun _ => List.cons_ne_nil _ _
  | token t => exact fun _ => List.cons_ne_nil _ _
  | rule _ ih => exact fun _ => ih (Rule.solid_form _)
  | seq _ _ iha ihb =>
    intro hf hnil
    obtain ⟨hts, hus⟩ := List.append_eq_nil_iff.1 hnil
    rcases (Bool.or_eq_true _ _).mp hf with ha | hb
    · exact iha ha hts
    · exact ihb hb hus
  | left _ ih => exact fun hf => ih ((Bool.and_eq_true _ _).mp hf).1
  | right _ ih => exact fun hf => ih ((Bool.and_eq_true _ _).mp hf).2
  | stop => exact fun hf => Bool.noConfusion hf
  | again _ _ _ _ => exact fun hf => Bool.noConfusion hf

end Grammar

namespace Draft

/-- How many tokens are left, ends of file not counted. -/
def left (d : Draft) : Nat := d.tokens.countP (· ≠ .eof)

variable {d d' : Draft}

theorem Reads.left_eq {ts : List Token} (h : d.Reads ts d') :
    d.left = ts.countP (· ≠ .eof) + d'.left := by
  obtain ⟨k, -, htokens⟩ := h.tokens
  have hcount := congrArg (List.countP (· ≠ .eof)) htokens
  rw [List.countP_append, List.countP_append, List.countP_replicate] at hcount
  simpa [left] using hcount

theorem Reads.left_lt {ts : List Token} {t : Token} (h : d.Reads ts d') (ht : t ∈ ts)
    (hne : t ≠ .eof) : d'.left < d.left := by
  have hpos : 0 < ts.countP (· ≠ .eof) := List.countP_pos_iff.2 ⟨t, ht, decide_eq_true hne⟩
  have heq := h.left_eq
  omega

theorem left_advance (h : advance d = .ok () d') (hne : d.ahead.token ≠ .eof) : d'.left < d.left :=
  (reads_advance h).left_lt List.mem_cons_self hne

theorem left_expect {t : Token} (h : expect t d = .ok () d') (hne : t ≠ .eof) : d'.left < d.left :=
  (reads_expect h).left_lt List.mem_cons_self hne

theorem left_writing (h : d.Reads [] d') : d'.left = d.left := by
  simpa using h.left_eq.symm

end Draft

/-- A rule that succeeds has moved past a token. -/
theorem Accepts.left_lt {α : Type} {x : Drafting α} {r : Rule} (hx : Accepts x (.rule r)) {d d' : Draft}
    {a : α} (h : x d = .ok a d') : d'.left < d.left := by
  obtain ⟨ts, hreads, hderives⟩ := hx h
  obtain ⟨t, ht⟩ := List.exists_mem_of_ne_nil _ (hderives.ne_nil rfl)
  exact hreads.left_lt ht fun he => hderives.eof_not_mem rfl (he ▸ ht)

/-- What `program` does once its first token is looked at. -/
def Rules.begun (n : Nat) : Drafting (Nat × Nat) := do
  let start ← opening n
  expect .eof
  return start

theorem Rules.program_eq (n : Nat) : program n = (do advance; begun n) := rfl

end Solo
