import Solo.Proofs.Slots
import Solo.Token.Stream

/-! Reading a whole text. `Scanner.Yields` says what reading token after token gives, up to the end of
the text or to a place where no token begins, and `Scanner.Lexes` that it reaches the end; the token
stream of a source holds exactly such readings, and the names in them have their slots in the order of
first occurrence. -/

namespace Solo

namespace Scanner

/-- Reading from `s` on gives the tokens `ts` and then the end, with the names met in `symbols`. -/
inductive Lexes : Scanner → List Token → SymbolTable → Prop where
  | eof {s s' : Scanner} {pos : Position} (h : s.next = (⟨pos, .ok .eof⟩, s')) :
      Lexes s [] s'.symbols
  | token {s s' : Scanner} {pos : Position} {t : Token} {ts : List Token} {symbols : SymbolTable}
      (h : s.next = (⟨pos, .ok t⟩, s')) (ht : t ≠ .eof) (rest : Lexes s' ts symbols) :
      Lexes s (t :: ts) symbols

/-- Reading from `s` on gives `ls` and then the end or an error, with the names met in `symbols`. -/
inductive Yields : Scanner → List Lexeme → TokenStream.Ending → SymbolTable → Prop where
  | eof {s s' : Scanner} {pos : Position} (h : s.next = (⟨pos, .ok .eof⟩, s')) :
      Yields s [] (.eof pos) s'.symbols
  | stuck {s s' : Scanner} {pos : Position} {error : ScanError}
      (h : s.next = (⟨pos, .error error⟩, s')) : Yields s [] (.stuck pos error) s'.symbols
  | token {s s' : Scanner} {pos : Position} {t : Token} {ls : List Lexeme}
      {ending : TokenStream.Ending} {symbols : SymbolTable} (h : s.next = (⟨pos, .ok t⟩, s'))
      (ht : t ≠ .eof) (rest : Yields s' ls ending symbols) : Yields s (⟨pos, t⟩ :: ls) ending symbols

theorem Yields.lexes {s : Scanner} {ls : List Lexeme} {ending : TokenStream.Ending}
    {symbols : SymbolTable} (h : s.Yields ls ending symbols) :
    ∀ pos, ending = .eof pos → s.Lexes (ls.map (·.token)) symbols := by
  induction h with
  | eof h => exact fun _ _ => .eof h
  | stuck h => exact fun _ he => TokenStream.Ending.noConfusion he
  | token h ht _ ih => exact fun pos he => .token h ht (ih pos he)

/-- What reading gives is determined. -/
theorem Yields.unique {s : Scanner} {ls ls' : List Lexeme} {ending ending' : TokenStream.Ending}
    {symbols symbols' : SymbolTable} (h : s.Yields ls ending symbols)
    (h' : s.Yields ls' ending' symbols') : ls = ls' ∧ ending = ending' ∧ symbols = symbols' := by
  induction h generalizing ls' with
  | eof h =>
    cases h' with
    | eof h' => cases h.symm.trans h'; exact ⟨rfl, rfl, rfl⟩
    | stuck h' => cases h.symm.trans h'
    | token h' ht => cases h.symm.trans h'; exact absurd rfl ht
  | stuck h =>
    cases h' with
    | eof h' => cases h.symm.trans h'
    | stuck h' => cases h.symm.trans h'; exact ⟨rfl, rfl, rfl⟩
    | token h' ht => cases h.symm.trans h'
  | token h ht _ ih =>
    cases h' with
    | eof h' => cases h.symm.trans h'; exact absurd rfl ht
    | stuck h' => cases h.symm.trans h'
    | token h' _ rest =>
      cases h.symm.trans h'
      obtain ⟨rfl, hrest⟩ := ih rest
      exact ⟨rfl, hrest⟩

theorem Lexes.yields {s : Scanner} {ts : List Token} {symbols : SymbolTable}
    (h : s.Lexes ts symbols) : ∃ ls pos, s.Yields ls (.eof pos) symbols ∧ ls.map (·.token) = ts := by
  induction h with
  | eof h => exact ⟨[], _, .eof h, rfl⟩
  | token h ht _ ih =>
    obtain ⟨ls, pos, hyields, rfl⟩ := ih
    exact ⟨_ :: ls, pos, .token h ht hyields, rfl⟩

/-- What a reading can do when text is left: a word that is a name is interned, and anything else
leaves the table alone. -/
theorem token_eq (s : Scanner) (h : s.rest ≠ []) : ∃ n, 0 < n ∧
    ((∃ r, s.token = (r, s.skip n) ∧ ∀ t, r = .ok t → t.name? = none ∧ t ≠ .eof) ∨
      ∃ x, s.token = (.ok (.ident x (s.symbols.intern x).1),
        { s.skip n with symbols := (s.symbols.intern x).2 })) := by
  unfold token
  split
  · next hr => exact absurd hr h
  · exact ⟨2, by omega, Or.inl ⟨_, rfl, by simp [Token.name?]⟩⟩
  · exact ⟨1, by omega, Or.inl ⟨_, rfl, by simp [Token.name?]⟩⟩
  · exact ⟨2, by omega, Or.inl ⟨_, rfl, by simp [Token.name?]⟩⟩
  · exact ⟨2, by omega, Or.inl ⟨_, rfl, by simp⟩⟩
  · next c cs _ _ _ _ _ =>
    split
    · refine ⟨(c :: cs.takeWhile Char.isDigit).length, by simp, Or.inl ?_⟩
      simp only
      split
      · exact ⟨_, rfl, by simp [Token.name?]⟩
      · exact ⟨_, rfl, by simp⟩
    · split
      · refine ⟨(c :: cs.takeWhile isWordPart).length, by simp, ?_⟩
        simp only [word]
        split
        · exact Or.inl ⟨_, rfl, by simp [Token.name?]⟩
        · exact Or.inr ⟨_, rfl⟩
      · refine ⟨1, by omega, Or.inl ?_⟩
        split
        · exact ⟨_, rfl, by simp [Token.name?]⟩
        · exact ⟨_, rfl, by simp⟩

theorem length_skip_lt {s : Scanner} {n : Nat} (hn : 0 < n) (h : s.rest ≠ []) :
    (s.skip n).rest.length < s.rest.length := by
  have := List.length_pos_iff.2 h
  simp only [skip, List.length_drop]
  omega

theorem length_skipBlanks_le (s : Scanner) : s.skipBlanks.rest.length ≤ s.rest.length := by
  simp only [skipBlanks, skip, List.length_drop]
  omega

variable {s s' : Scanner} {pos : Position} {t : Token}

theorem next_eq (h : s.next = (⟨pos, .ok t⟩, s')) : s.skipBlanks.token = (.ok t, s') := by
  simp only [next, Prod.mk.injEq, Reading.mk.injEq] at h
  obtain ⟨⟨-, htoken⟩, hs⟩ := h
  rw [← htoken, ← hs]

/-- Every token but the end takes at least one character. -/
theorem next_lt (h : s.next = (⟨pos, .ok t⟩, s')) (ht : t ≠ .eof) :
    s'.rest.length < s.rest.length := by
  have htoken := next_eq h
  have hle := length_skipBlanks_le s
  by_cases hr : s.skipBlanks.rest = []
  · simp only [token, hr, Prod.mk.injEq, Except.ok.injEq] at htoken
    exact absurd htoken.1.symm ht
  · obtain ⟨n, hn, ⟨r, he, -⟩ | ⟨x, he⟩⟩ := token_eq s.skipBlanks hr
    all_goals
      have hlt := length_skip_lt hn hr
      rw [he, Prod.mk.injEq] at htoken
      rw [← htoken.2]
      exact Nat.lt_of_lt_of_le hlt hle

/-- The table after a token: a name has been interned, or there was none. -/
theorem next_symbols (h : s.next = (⟨pos, .ok t⟩, s')) :
    (t.name? = none ∧ s'.symbols = s.symbols) ∨
      ∃ x, t = .ident x (s.symbols.intern x).1 ∧ s'.symbols = (s.symbols.intern x).2 := by
  have htoken := next_eq h
  by_cases hr : s.skipBlanks.rest = []
  · simp only [token, hr, Prod.mk.injEq, Except.ok.injEq] at htoken
    rw [← htoken.1, ← htoken.2]
    exact Or.inl ⟨rfl, rfl⟩
  · obtain ⟨n, -, ⟨r, he, hname⟩ | ⟨x, he⟩⟩ := token_eq s.skipBlanks hr
    · rw [he, Prod.mk.injEq] at htoken
      rw [← htoken.2]
      exact Or.inl ⟨(hname t htoken.1).1, rfl⟩
    · rw [he, Prod.mk.injEq, Except.ok.injEq] at htoken
      rw [← htoken.1, ← htoken.2]
      exact Or.inr ⟨x, rfl, rfl⟩

theorem next_symbols_of_error {error : ScanError} (h : s.next = (⟨pos, .error error⟩, s')) :
    s'.symbols = s.symbols := by
  simp only [next, Prod.mk.injEq, Reading.mk.injEq] at h
  obtain ⟨⟨-, htoken⟩, rfl⟩ := h
  have hr : s.skipBlanks.rest ≠ [] := fun hr => by
    simp only [token, hr] at htoken
    cases htoken
  obtain ⟨n, -, ⟨r, he, -⟩ | ⟨x, he⟩⟩ := token_eq s.skipBlanks hr
  · rw [he]
    rfl
  · rw [he] at htoken
    cases htoken

/-- Reading on after the tokens `read`, whose names are in the table, gives every name its slot. -/
theorem Yields.slots {ls : List Lexeme} {ending : TokenStream.Ending} {symbols : SymbolTable}
    (h : Yields s ls ending symbols) :
    ∀ read : List Token, s.symbols.Valid → s.symbols.names.toList = distinctNames read →
      symbols.names.toList = distinctNames (read ++ ls.map (·.token)) ∧
        ∀ x k, .ident x k ∈ ls.map (·.token) → k = slotIn (read ++ ls.map (·.token)) x := by
  induction h with
  | @eof s s' pos h =>
    intro read _ hnames
    have hsame : s'.symbols = s.symbols := by
      obtain ⟨-, he⟩ | ⟨x, hx, -⟩ := next_symbols h
      · exact he
      · cases hx
    rw [hsame, List.map_nil, List.append_nil]
    exact ⟨hnames, fun x k hmem => absurd hmem List.not_mem_nil⟩
  | @stuck s s' pos error h =>
    intro read _ hnames
    rw [next_symbols_of_error h, List.map_nil, List.append_nil]
    exact ⟨hnames, fun x k hmem => absurd hmem List.not_mem_nil⟩
  | @token s s' pos t ls ending symbols h ht _ ih =>
    intro read hvalid hnames
    rw [List.map_cons, List.append_cons]
    obtain ⟨hnone, he⟩ | ⟨x, rfl, he⟩ := next_symbols h
    · have hread : s'.symbols.names.toList = distinctNames (read ++ [t]) := by
        rw [he, hnames, distinctNames_concat, hnone]
      obtain ⟨hall, hslot⟩ := ih (read ++ [t]) (he ▸ hvalid) hread
      refine ⟨hall, fun y k hmem => ?_⟩
      rcases List.mem_cons.1 hmem with rfl | hmem
      · cases hnone
      · exact hslot y k hmem
    · have hread : s'.symbols.names.toList =
          distinctNames (read ++ [.ident x (s.symbols.intern x).1]) := by
        rw [he, hvalid.intern_names, hnames, distinctNames_concat, Token.name?]
      obtain ⟨hall, hslot⟩ := ih _ (he ▸ hvalid.intern_valid x) hread
      refine ⟨hall, fun y k hmem => ?_⟩
      rcases List.mem_cons.1 hmem with hy | hmem
      · obtain ⟨rfl, rfl⟩ := Token.ident.inj hy
        have hknown : y ∈ distinctNames (read ++ [.ident y (s.symbols.intern y).1]) := by
          simp [distinctNames, List.mem_eraseDups, Token.name?]
        rw [slotIn_append hknown, slotIn, ← hread, he]
        exact hvalid.intern_slot y
      · exact hslot y k hmem

/-- In a text every name has the slot of its first occurrence. -/
theorem Yields.slotIn {source : String} {ls : List Lexeme} {ending : TokenStream.Ending}
    {symbols : SymbolTable} (h : (Scanner.ofSource source).Yields ls ending symbols) :
    symbols.names.toList = distinctNames (ls.map (·.token)) ∧
      ∀ x k, .ident x k ∈ ls.map (·.token) → k = slotIn (ls.map (·.token)) x :=
  h.slots [] SymbolTable.valid_empty rfl

theorem Lexes.slotIn {source : String} {ts : List Token} {symbols : SymbolTable}
    (h : (Scanner.ofSource source).Lexes ts symbols) :
    symbols.names.toList = distinctNames ts ∧ ∀ x k, .ident x k ∈ ts → k = slotIn ts x := by
  obtain ⟨ls, pos, hyields, rfl⟩ := h.yields
  exact hyields.slotIn

end Scanner

namespace TokenStream

open Scanner

def tokens (stream : TokenStream) : List Token := stream.lexemes.map (·.token)

theorem yields_of_collect : ∀ n read (s : Scanner), s.rest.length < n →
    ∃ new, (collect n read s).lexemes = read.reverse ++ new ∧
      s.Yields new (collect n read s).ending (collect n read s).symbols := by
  intro n
  induction n with
  | zero => intro read s hn; omega
  | succ n ih =>
    intro read s hn
    rw [collect]
    split
    · next pos e s' hnext => exact ⟨[], by simp, .stuck hnext⟩
    · next pos s' hnext => exact ⟨[], by simp, .eof hnext⟩
    · next pos t s' hne hnext =>
      have ht : t ≠ .eof := fun he => hne (by rw [he])
      have hlt := next_lt hnext ht
      obtain ⟨new, hnew, hyields⟩ := ih (⟨pos, t⟩ :: read) s' (by omega)
      exact ⟨⟨pos, t⟩ :: new, by rw [hnew]; simp, .token hnext ht hyields⟩

/-- The stream of a source is what reading it gives. -/
theorem yields_ofSource (source : String) : (Scanner.ofSource source).Yields
    (ofSource source).lexemes (ofSource source).ending (ofSource source).symbols := by
  have hlen : (Scanner.ofSource source).rest.length < source.length + 1 := by
    rw [Scanner.ofSource, String.length_toList]
    omega
  obtain ⟨new, hnew, hyields⟩ := yields_of_collect _ [] _ hlen
  rw [ofSource, hnew]
  exact hyields

/-- The stream of a source ends at its end exactly if all of it can be read, and then holds its
tokens and names. -/
theorem ofSource_eof_iff (source : String) (ts : List Token) (symbols : SymbolTable) :
    (Scanner.ofSource source).Lexes ts symbols ↔
      (∃ pos, (ofSource source).ending = .eof pos) ∧ (ofSource source).tokens = ts ∧
        (ofSource source).symbols = symbols := by
  constructor
  · intro h
    obtain ⟨ls, pos, hyields, rfl⟩ := h.yields
    obtain ⟨hls, hending, hsymbols⟩ := (yields_ofSource source).unique hyields
    exact ⟨⟨pos, hending⟩, by rw [tokens, hls], hsymbols⟩
  · rintro ⟨⟨pos, hpos⟩, rfl, rfl⟩
    exact (yields_ofSource source).lexes pos hpos

end TokenStream

end Solo
