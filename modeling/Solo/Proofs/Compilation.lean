import Solo.Proofs.Acceptance
import Solo.Proofs.Generation
import Solo.Proofs.Trees

/-! Which sources compile and to what. A source compiles, given room, exactly if all of it is read as
tokens that the grammar derives, and it then compiles to the code of its tree. -/

namespace Solo

open Draft Grammar

namespace Grammar

/-- No end of file is written in the form. -/
def Form.endFree : Form → Bool
  | .token t => t ≠ .eof
  | .seq a b | .choice a b => a.endFree && b.endFree
  | .many a => a.endFree
  | .number | .identifier | .rule _ => true

theorem Rule.endFree_form (r : Rule) : r.form.endFree = true := by
  cases r <;> rfl

theorem Form.Derives.eof_not_mem {f : Form} {ts : List Token} (h : f.Derives ts) :
    f.endFree = true → .eof ∉ ts := by
  induction h with
  | number value => exact fun _ => by simp
  | identifier name k => exact fun _ => by simp
  | token t => exact fun ht hmem => of_decide_eq_true ht (List.mem_singleton.1 hmem).symm
  | rule _ ih => exact fun _ => ih (Rule.endFree_form _)
  | seq _ _ iha ihb =>
    intro hf hmem
    obtain ⟨ha, hb⟩ := (Bool.and_eq_true _ _).mp hf
    exact (List.mem_append.1 hmem).elim (iha ha) (ihb hb)
  | left _ ih => exact fun hf => ih ((Bool.and_eq_true _ _).mp hf).1
  | right _ ih => exact fun hf => ih ((Bool.and_eq_true _ _).mp hf).2
  | stop => exact fun _ => List.not_mem_nil
  | again _ _ iha ihb => exact fun hf hmem => (List.mem_append.1 hmem).elim (iha hf) (ihb hf)

end Grammar

theorem TokenStream.collect_ne_eof (n : Nat) : ∀ read s, (∀ l ∈ read, l.token ≠ .eof) →
    ∀ l ∈ (collect n read s).lexemes, l.token ≠ .eof := by
  induction n with
  | zero =>
    intro read s hread l hl
    exact hread l (List.mem_reverse.1 hl)
  | succ n ih =>
    intro read s hread l hl
    rw [collect] at hl
    split at hl
    · exact hread l (List.mem_reverse.1 hl)
    · exact hread l (List.mem_reverse.1 hl)
    · next pos t s' hne _ =>
      refine ih (⟨pos, t⟩ :: read) s' (fun l hmem => ?_) l hl
      rcases List.mem_cons.1 hmem with rfl | hmem
      · exact hne
      · exact hread l hmem

theorem TokenStream.eof_not_mem (source : String) : .eof ∉ (ofSource source).tokens := by
  intro hmem
  obtain ⟨l, hl, he⟩ := List.mem_map.1 hmem
  exact collect_ne_eof _ [] _ (fun l hl => absurd hl List.not_mem_nil) l hl he

theorem takeWhile_ne_eof {ts us : List Token} (h : .eof ∉ ts) :
    (ts ++ .eof :: us).takeWhile (· ≠ .eof) = ts := by
  have hts : ∀ t ∈ ts, decide (t ≠ .eof) = true := by
    intro t ht
    exact decide_eq_true fun he => h (he ▸ ht)
  rw [List.takeWhile_append_of_pos hts]
  simp

/-- What compiles has been read to its end, and the grammar derives it. -/
theorem derives_of_compile {source : String} {capacity : Nat} {b : Bytecode}
    (h : compile source capacity = .ok b) :
    ∃ ts symbols, (Scanner.ofSource source).Lexes ts symbols ∧ (Form.rule .program).Derives ts := by
  obtain ⟨entry, param, d, hprogram, -⟩ := compile_eq_ok.1 h
  obtain ⟨_, d₁, h₁, hprogram⟩ := bind_eq_ok.1 hprogram
  obtain ⟨_, d₂, h₂, hprogram⟩ := bind_eq_ok.1 hprogram
  obtain ⟨_, d₃, h₃, hprogram⟩ := bind_eq_ok.1 hprogram
  obtain ⟨ts, hts, hderives⟩ := Rules.accepts_opening _ h₂
  obtain ⟨-, k, hk, htokens⟩ := (reads_advance h₁).trans (hts.trans (reads_expect h₃))
  have hstream : (TokenStream.ofSource source).tokens ++ List.replicate k .eof =
      ts ++ .eof :: d₃.tokens := by
    simpa [Draft.tokens, Draft.start, TokenStream.tokens] using htokens
  cases k with
  | zero =>
    refine absurd ?_ (TokenStream.eof_not_mem source)
    rw [List.replicate_zero, List.append_nil] at hstream
    rw [hstream]
    simp
  | succ k =>
    refine ⟨ts, (TokenStream.ofSource source).symbols, ?_, hderives⟩
    rw [TokenStream.ofSource_eof_iff]
    refine ⟨hk (Nat.succ_pos k), ?_, rfl⟩
    rw [List.replicate_succ] at hstream
    rw [← takeWhile_ne_eof (TokenStream.eof_not_mem source), hstream,
      takeWhile_ne_eof (hderives.eof_not_mem rfl)]

/-- What the grammar derives is what trees are written in, with slots in the order of first
occurrence. -/
theorem sentence_iff_derives {source : String} {ts : List Token} {symbols : SymbolTable}
    (hlexes : (Scanner.ofSource source).Lexes ts symbols) :
    Sentence (slotIn ts) ts ↔ (Form.rule .program).Derives ts := by
  constructor
  · rintro ⟨p, hp⟩
    rw [← hp]
    exact p.derives
  · intro h
    exact sentence_of_derives h hlexes.slotIn.2

/-- The sources that compile, given room, are those that the grammar derives. -/
theorem compile_ok_iff_derives (source : String) :
    (∃ capacity b, compile source capacity = .ok b) ↔
      ∃ ts symbols, (Scanner.ofSource source).Lexes ts symbols ∧ (Form.rule .program).Derives ts := by
  constructor
  · rintro ⟨capacity, b, h⟩
    exact derives_of_compile h
  · rintro ⟨ts, symbols, hlexes, hderives⟩
    obtain ⟨p, hp⟩ := (sentence_iff_derives hlexes).2 hderives
    rw [← hp] at hlexes
    exact ⟨_, _, compile_of_tree hlexes (Nat.le_refl _)⟩

/-- Whatever the capacity, code is that of the tree. -/
theorem eq_of_compile {source : String} {capacity : Nat} {b : Bytecode} {ts : List Token}
    {symbols : SymbolTable} {p : Program} {slot : String → Nat}
    (h : compile source capacity = .ok b)
    (hlexes : (Scanner.ofSource source).Lexes ts symbols) (hp : p.tokens slot = ts) :
    b = ⟨p.code slot, Bytecode.bodyAddr, slot p.param, symbols⟩ := by
  have hwide := compile_widen h (Nat.le_max_left capacity (width (p.code slot)))
  rw [← hp] at hlexes
  rw [compile_of_tree hlexes (Nat.le_max_right _ _)] at hwide
  exact (Except.ok.inj hwide).symm

theorem compile_eq_code {source : String} {capacity : Nat} {b : Bytecode}
    (h : compile source capacity = .ok b) :
    ∃ ts symbols, (Scanner.ofSource source).Lexes ts symbols ∧ Sentence (slotIn ts) ts ∧
      ∀ p : Program, p.tokens (slotIn ts) = ts →
        b.instructions = p.code (slotIn ts) ∧ b.startAddr = 3 ∧
        b.symbols.names.toList = distinctNames ts ∧ slotIn ts p.name = 0 ∧
        b.paramSlot = slotIn ts p.param := by
  obtain ⟨ts, symbols, hlexes, hderives⟩ := derives_of_compile h
  refine ⟨ts, symbols, hlexes, (sentence_iff_derives hlexes).2 hderives, fun p hp => ?_⟩
  have hb := eq_of_compile h hlexes hp
  subst hb
  refine ⟨rfl, rfl, hlexes.slotIn.1, ?_, rfl⟩
  rw [← hp]
  simp [slotIn, distinctNames, Program.tokens, Token.name?, List.eraseDups_cons]

theorem compile_eq_code_nested : ∃ b ts symbols,
    compile "f(n) \x7b while (n > 0) if (n == k) return f(k * n); else n = n - k; \x7d" 64 = .ok b ∧
      (Scanner.ofSource
        "f(n) \x7b while (n > 0) if (n == k) return f(k * n); else n = n - k; \x7d").Lexes ts symbols ∧
      Sentence (slotIn ts) ts ∧ ∀ p : Program, p.tokens (slotIn ts) = ts →
        b.instructions = p.code (slotIn ts) ∧ b.paramSlot = slotIn ts p.param := by
  obtain ⟨b, hb⟩ := Option.isSome_iff_exists.1 (show (compile
    "f(n) \x7b while (n > 0) if (n == k) return f(k * n); else n = n - k; \x7d" 64).toOption.isSome =
      true by decide +kernel)
  obtain ⟨ts, symbols, hlexes, hsentence, hcode⟩ := compile_eq_code (eq_ok_of_toOption hb)
  refine ⟨b, ts, symbols, eq_ok_of_toOption hb, hlexes, hsentence, fun p hp => ?_⟩
  obtain ⟨hinstructions, -, -, -, hparam⟩ := hcode p hp
  exact ⟨hinstructions, hparam⟩

end Solo
