import Mathlib.Data.List.Forall2
import Mathlib.Data.List.Induction
import Solo.Proofs.Correctness
import Solo.Proofs.Threshold
import Solo.Proofs.Viability

/-! Compiling looks only at the kinds of the tokens, at numbers, and at which names are the same. Names
that correspond one to one get the same slots, because slots follow the order of first occurrence; and
two drafts whose tokens are the same but for the spelling of names are led through the same steps. So
neither the layout of a source nor what its names are called changes its code or what it gives. -/

namespace Solo

open Draft

section

variable {rename : String → String} {l : List String}

theorem eraseDups_map (h : ∀ x ∈ l, ∀ y ∈ l, rename x = rename y → x = y) :
    (l.map rename).eraseDups = l.eraseDups.map rename := by
  induction l using List.reverseRecOn with
  | nil => rfl
  | append_singleton l x ih =>
    have ih := ih fun y hy z hz => h y (List.mem_append_left _ hy) z (List.mem_append_left _ hz)
    have hmem : rename x ∈ l.map rename ↔ x ∈ l := by
      refine ⟨fun hx => ?_, List.mem_map_of_mem⟩
      obtain ⟨y, hy, heq⟩ := List.mem_map.1 hx
      exact h y (List.mem_append_left _ hy) x (by simp) heq ▸ hy
    rw [List.map_append, List.map_singleton, eraseDups_concat, eraseDups_concat, ih]
    simp only [hmem]
    split
    · rfl
    · rw [List.map_append, List.map_singleton]

theorem idxOf_map {x : String} (hx : x ∈ l) (h : ∀ x ∈ l, ∀ y ∈ l, rename x = rename y → x = y) :
    (l.map rename).idxOf (rename x) = l.idxOf x := by
  induction l with
  | nil => simp at hx
  | cons y l ih =>
    rw [List.map_cons, List.idxOf_cons, List.idxOf_cons]
    by_cases hyx : y = x
    · simp [hyx]
    · have hne : rename y ≠ rename x := fun heq => hyx (h y (by simp) x hx heq)
      have hxl : x ∈ l := by simpa [Ne.symm hyx] using hx
      have ih := ih hxl fun a ha b hb => h a (List.mem_cons_of_mem _ ha) b (List.mem_cons_of_mem _ hb)
      rw [beq_false_of_ne hne, beq_false_of_ne hyx, ih]

end

namespace Token

/-- The tokens agree in all but slots, when names are renamed. -/
inductive Corresponds (rename : String → String) : Token → Token → Prop where
  | number (value : Word) : Corresponds rename (.number value) (.number value)
  | ident (name : String) (k k' : Nat) : Corresponds rename (.ident name k) (.ident (rename name) k')
  | keyword (k : Keyword) : Corresponds rename (.keyword k) (.keyword k)
  | punct (p : Punct) : Corresponds rename (.punct p) (.punct p)

/-- The token without the spelling of its name. -/
def anonymous : Token → Token
  | .ident _ k => .ident "" k
  | t => t

theorem eq_of_anonymous {α : Type} {f : Token → α} (hf : ∀ x y k, f (.ident x k) = f (.ident y k))
    {t t' : Token} (h : t.anonymous = t'.anonymous) : f t = f t' := by
  cases t with
  | ident x k =>
    cases t' with
    | ident y k' =>
      obtain rfl : k = k' := (Token.ident.inj h).2
      exact hf x y k
    | _ => cases h
  | _ => cases t' <;> simp_all [anonymous]

end Token

section

variable {rename : String → String} {ts ts' : List Token}

theorem names_of_corresponds (h : List.Forall₂ (Token.Corresponds rename) ts ts') :
    ts'.filterMap Token.name? = (ts.filterMap Token.name?).map rename := by
  induction h with
  | nil => rfl
  | cons hhead _ ih => cases hhead <;> simp only [List.filterMap_cons, Token.name?, ih, List.map_cons]

variable (h : List.Forall₂ (Token.Corresponds rename) ts ts')
  (hinj : ∀ x ∈ distinctNames ts, ∀ y ∈ distinctNames ts, rename x = rename y → x = y)

include h hinj

theorem distinctNames_of_corresponds : distinctNames ts' = (distinctNames ts).map rename := by
  have hinj' : ∀ x ∈ ts.filterMap Token.name?, ∀ y ∈ ts.filterMap Token.name?,
      rename x = rename y → x = y := by
    simpa only [distinctNames, List.mem_eraseDups] using hinj
  rw [distinctNames, names_of_corresponds h, eraseDups_map hinj']
  rfl

theorem slotIn_of_corresponds {x : String} (hx : x ∈ distinctNames ts) :
    slotIn ts' (rename x) = slotIn ts x := by
  rw [slotIn, distinctNames_of_corresponds h hinj, idxOf_map hx hinj, slotIn]

end

/-- Names that correspond have the same slots. -/
theorem anonymous_of_corresponds {rename : String → String} {ts ts' us us' : List Token}
    (h : List.Forall₂ (Token.Corresponds rename) us us')
    (hslots : ∀ x k, .ident x k ∈ us → x ∈ distinctNames ts ∧ k = slotIn ts x)
    (hslots' : ∀ x k, .ident x k ∈ us' → k = slotIn ts' x)
    (hsame : ∀ x ∈ distinctNames ts, slotIn ts' (rename x) = slotIn ts x) :
    List.Forall₂ (fun t t' => t.anonymous = t'.anonymous) us us' := by
  induction h with
  | nil => exact .nil
  | cons hhead _ ih =>
    refine .cons ?_ (ih (fun x k hx => hslots x k (List.mem_cons_of_mem _ hx))
      fun x k hx => hslots' x k (List.mem_cons_of_mem _ hx))
    cases hhead with
    | ident name k k' =>
      obtain ⟨hname, rfl⟩ := hslots name k (by simp)
      obtain rfl := hslots' (rename name) k' (by simp)
      rw [hsame name hname]
      rfl
    | _ => rfl

section

variable (all all' : List Lexeme)

/-- `l` and `l'` stand at the same place in two sources and are the same but for the spelling of a
name. -/
structure SamePlace (l l' : Lexeme) : Prop where
  anonymous : l.token.anonymous = l'.token.anonymous
  index : ∃ i : Nat, all[i]? = some l ∧ all'[i]? = some l'

/-- Two drafts have written the same and are to read the same. -/
structure AlikeBehind (d d' : Draft) : Prop where
  rest : List.Forall₂ (SamePlace all all') d.rest d'.rest
  ending : ∃ l l', d.ending.lexeme? = some l ∧ d'.ending.lexeme? = some l' ∧ SamePlace all all' l l'
  capacity : d'.capacity = d.capacity
  code : d'.code = d.code
  size : d'.size = d.size

/-- And they look at the same place. -/
structure Alike (d d' : Draft) : Prop extends AlikeBehind all all' d d' where
  ahead : SamePlace all all' d.ahead d'.ahead

/-- Two runs end alike: with the same answer, with an error at the same place, or both without room. -/
inductive EndAlike {α : Type} :
    EStateM.Result CompileError Draft α → EStateM.Result CompileError Draft α → Prop where
  | ok (a : α) {d d' : Draft} (h : Alike all all' d d') : EndAlike (.ok a d) (.ok a d')
  | misplaced (expected : Expected) {l l' : Lexeme} {d d' : Draft} (h : SamePlace all all' l l') :
      EndAlike (.error (.misplaced l.pos expected l.token) d)
        (.error (.misplaced l'.pos expected l'.token) d')
  | overflow (c : Nat) {d d' : Draft} :
      EndAlike (.error (.codeOverflow c) d) (.error (.codeOverflow c) d')

end

section

variable {all all' : List Lexeme} {α β : Type}

theorem EndAlike.bind {x : Drafting α} {f : α → Drafting β} {d d' : Draft}
    (hx : EndAlike all all' (x d) (x d'))
    (hf : ∀ a {d d'}, Alike all all' d d' → EndAlike all all' (f a d) (f a d')) :
    EndAlike all all' ((x >>= f) d) ((x >>= f) d') := by
  generalize hr : x d = r at hx
  generalize hr' : x d' = r' at hx
  cases hx with
  | ok a h =>
    rw [bind_of_ok hr, bind_of_ok hr']
    exact hf a h
  | misplaced expected h =>
    rw [bind_of_error hr, bind_of_error hr']
    exact .misplaced expected h
  | overflow c =>
    rw [bind_of_error hr, bind_of_error hr']
    exact .overflow c

theorem AlikeBehind.advance {d d' : Draft} (h : AlikeBehind all all' d d') :
    EndAlike all all' (Draft.advance d) (Draft.advance d') := by
  obtain ⟨ahead, rest, ending, capacity, code, size, trace⟩ := d
  obtain ⟨ahead', rest', ending', capacity', code', size', trace'⟩ := d'
  obtain ⟨hrest, ⟨l, l', hl, hl', hlast⟩, hcapacity, hcode, hsize⟩ := h
  cases hrest with
  | cons hhead htail =>
    exact .ok () ⟨⟨htail, ⟨l, l', hl, hl', hlast⟩, hcapacity, hcode, hsize⟩, hhead⟩
  | nil =>
    cases ending with
    | stuck pos error => simp [TokenStream.Ending.lexeme?] at hl
    | eof pos =>
      cases ending' with
      | stuck pos' error => simp [TokenStream.Ending.lexeme?] at hl'
      | eof pos' =>
        cases hl
        cases hl'
        exact .ok () ⟨⟨.nil, ⟨_, _, rfl, rfl, hlast⟩, hcapacity, hcode, hsize⟩, hlast⟩

theorem Alike.emit {d d' : Draft} (h : Alike all all' d d') (i : Instruction) :
    EndAlike all all' (Draft.emit i d) (Draft.emit i d') := by
  unfold Draft.emit
  rw [h.size, h.capacity]
  split
  · exact .ok () ⟨⟨h.rest, h.ending, rfl, by simp only [h.code], rfl⟩, h.ahead⟩
  · exact .overflow _

theorem Composed.endAlike {x : Drafting α} (hx : Composed x) {d d' : Draft} (h : Alike all all' d d') :
    EndAlike all all' (x d) (x d') := by
  induction hx generalizing d d' with
  | pure a => exact .ok a h
  | bind _ _ ihx ihf => exact (ihx h).bind fun a _ _ => ihf a
  | look hname _ ihf =>
    rw [token_bind, token_bind, ← Token.eq_of_anonymous hname h.ahead.anonymous]
    exact ihf _ h
  | here =>
    rw [Draft.here, Draft.here, h.size]
    exact .ok _ h
  | advance => exact h.toAlikeBehind.advance
  | reject expected => exact .misplaced expected h.ahead
  | emit i => exact h.emit i
  | emitJump i =>
    have hindex : Draft.emitJump i d' = (Draft.emit i >>= fun _ => Pure.pure d.code.size) d' := by
      rw [← h.code]
      rfl
    rw [hindex]
    exact (h.emit i).bind fun _ _ _ => .ok _
  | patch index =>
    exact .ok () ⟨⟨h.rest, h.ending, h.capacity, by simp only [h.code, h.size], h.size⟩, h.ahead⟩

end

theorem Rules.begun_composed (n : Nat) : Composed (begun n) :=
  (opening_composed n).bind fun _ => (Composed.expect (by simp)).bind fun _ => .pure _

/-- The tokens of a source, the end of file included. -/
abbrev TokenStream.all (stream : TokenStream) : List Lexeme := shown stream.lexemes stream.ending

theorem TokenStream.all_of_eof {stream : TokenStream} {pos : Position}
    (h : stream.ending = .eof pos) : stream.all = stream.lexemes ++ [⟨pos, .eof⟩] := by
  rw [all, shown, h]
  rfl

/-- Streams of corresponding tokens have corresponding tokens at the same places. -/
theorem alikeBehind_start {stream stream' : TokenStream} {pos pos' : Position}
    (htokens : List.Forall₂ (fun t t' => t.anonymous = t'.anonymous) stream.tokens stream'.tokens)
    (hending : stream.ending = .eof pos) (hending' : stream'.ending = .eof pos') (c : Nat) :
    AlikeBehind stream.all stream'.all (.start stream c) (.start stream' c) := by
  simp only [TokenStream.tokens, List.forall₂_map_left_iff, List.forall₂_map_right_iff] at htokens
  obtain ⟨hlength, hget⟩ := List.forall₂_iff_get.1 htokens
  have hall := TokenStream.all_of_eof hending
  have hall' := TokenStream.all_of_eof hending'
  have hplaces : List.Forall₂ (SamePlace stream.all stream'.all) stream.lexemes stream'.lexemes := by
    refine List.forall₂_iff_get.2 ⟨hlength, fun i hi hi' => ⟨hget i hi hi', i, ?_, ?_⟩⟩
    · rw [hall, List.getElem?_append_left hi]
      exact List.getElem?_eq_getElem hi
    · rw [hall', List.getElem?_append_left hi']
      exact List.getElem?_eq_getElem hi'
  refine ⟨hplaces, ⟨⟨pos, .eof⟩, ⟨pos', .eof⟩, ?_, ?_, rfl, stream.lexemes.length, ?_, ?_⟩, rfl, rfl, rfl⟩
  · rw [Draft.start, hending]
    rfl
  · rw [Draft.start, hending']
    rfl
  · rw [hall, List.getElem?_concat_length]
  · rw [hall', hlength, List.getElem?_concat_length]

theorem mem_distinctNames {ts : List Token} {x : String} {k : Nat} (h : .ident x k ∈ ts) :
    x ∈ distinctNames ts := by
  rw [distinctNames, List.mem_eraseDups]
  exact List.mem_filterMap.2 ⟨_, h, rfl⟩

section

variable {source source' : String} {ts ts' : List Token} {symbols symbols' : SymbolTable}
  {rename : String → String} (hlexes : (Scanner.ofSource source).Lexes ts symbols)
  (hlexes' : (Scanner.ofSource source').Lexes ts' symbols')
  (hcorresponds : List.Forall₂ (Token.Corresponds rename) ts ts')
  (hinj : ∀ x ∈ distinctNames ts, ∀ y ∈ distinctNames ts, rename x = rename y → x = y)

include hlexes hlexes' hcorresponds hinj

theorem symbols_of_corresponds : symbols'.names.toList = symbols.names.toList.map rename := by
  rw [hlexes.slotIn.1, hlexes'.slotIn.1, distinctNames_of_corresponds hcorresponds hinj]

theorem programs_endAlike (c : Nat) :
    EndAlike (TokenStream.ofSource source).all (TokenStream.ofSource source').all
      (Rules.program (m := Drafting) (4 * (TokenStream.ofSource source).lexemes.length + 8)
        (.start (.ofSource source) c))
      (Rules.program (m := Drafting) (4 * (TokenStream.ofSource source').lexemes.length + 8)
        (.start (.ofSource source') c)) := by
  obtain ⟨⟨pos, hending⟩, rfl, -⟩ := (TokenStream.ofSource_eof_iff source _ _).1 hlexes
  obtain ⟨⟨pos', hending'⟩, rfl, -⟩ := (TokenStream.ofSource_eof_iff source' _ _).1 hlexes'
  have htokens := anonymous_of_corresponds hcorresponds
    (fun x k hx => ⟨mem_distinctNames hx, hlexes.slotIn.2 x k hx⟩) hlexes'.slotIn.2
    fun x hx => slotIn_of_corresponds hcorresponds hinj hx
  -- the number of tokens, and with it the depth that the rules are given, is the same
  have hlength : (TokenStream.ofSource source').lexemes.length =
      (TokenStream.ofSource source).lexemes.length := by
    simpa [TokenStream.tokens] using htokens.length_eq.symm
  rw [hlength, Rules.program_eq]
  apply (alikeBehind_start htokens hending hending' c).advance.bind
  intro _ d d' halike
  exact (Rules.begun_composed _).endAlike halike

end

/-- A run sees only the code, the size of a frame, and where the parameter is. -/
theorem run_eq_of_code {source source' : String} (limits : Limits) {b b' : Bytecode}
    (h : compile source limits.code = .ok b) (h' : compile source' limits.code = .ok b')
    (hcode : b'.instructions = b.instructions) (hframe : b'.frameSize = b.frameSize)
    (hparam : b'.paramSlot = b.paramSlot) (bound : Nat) (arg : Word) :
    run limits bound source' arg = run limits bound source arg := by
  have hload : Machine.load b' limits = Machine.load b limits := by
    rw [Machine.load, Machine.load, Bytecode.words, Bytecode.words, hcode, hframe, hparam]
  rw [run_of_compile h, run_of_compile h', hload]

/-- Sources whose tokens correspond compile to the same code and run alike, or both lack room, or fail
at the same token for the same reason. -/
theorem compile_respects_renaming {source source' : String} {ts ts' : List Token}
    {symbols symbols' : SymbolTable} {rename : String → String}
    (hlexes : (Scanner.ofSource source).Lexes ts symbols)
    (hlexes' : (Scanner.ofSource source').Lexes ts' symbols')
    (hcorresponds : List.Forall₂ (Token.Corresponds rename) ts ts')
    (hinj : ∀ x ∈ distinctNames ts, ∀ y ∈ distinctNames ts, rename x = rename y → x = y) (c : Nat) :
    (∃ b b', compile source c = .ok b ∧ compile source' c = .ok b' ∧
      b'.instructions = b.instructions ∧ b'.words = b.words ∧ b'.startAddr = b.startAddr ∧
      b'.paramSlot = b.paramSlot ∧ b'.symbols.names.toList = b.symbols.names.toList.map rename ∧
      ∀ stack bound arg, run ⟨c, stack⟩ bound source' arg = run ⟨c, stack⟩ bound source arg) ∨
    (compile source c = .error (.codeOverflow c) ∧ compile source' c = .error (.codeOverflow c)) ∨
    ∃ (i : Nat) (l l' : Lexeme) (expected : Expected),
      (TokenStream.ofSource source).all[i]? = some l ∧
      (TokenStream.ofSource source').all[i]? = some l' ∧
      compile source c = .error (.misplaced l.pos expected l.token) ∧
      compile source' c = .error (.misplaced l'.pos expected l'.token) := by
  have hend := programs_endAlike hlexes hlexes' hcorresponds hinj c
  have hnames := symbols_of_corresponds hlexes hlexes' hcorresponds hinj
  obtain ⟨-, -, rfl⟩ := (TokenStream.ofSource_eof_iff source _ _).1 hlexes
  obtain ⟨-, -, rfl⟩ := (TokenStream.ofSource_eof_iff source' _ _).1 hlexes'
  generalize hr : Rules.program (m := Drafting) _ (.start (.ofSource source) c) = r at hend
  generalize hr' : Rules.program (m := Drafting) _ (.start (.ofSource source') c) = r' at hend
  cases hend with
  | @ok start d d' h =>
    have hcompile := compile_eq_ok.2 ⟨start.1, start.2, d, hr, rfl⟩
    have hcompile' := compile_eq_ok.2 ⟨start.1, start.2, d', hr', rfl⟩
    have hcode : d'.code.toList = d.code.toList := congrArg Array.toList h.code
    have hsize : (TokenStream.ofSource source').symbols.size =
        (TokenStream.ofSource source).symbols.size := by
      simpa [SymbolTable.size] using congrArg List.length hnames
    refine .inl ⟨_, _, hcompile, hcompile', hcode, ?_, rfl, rfl, hnames, fun stack => ?_⟩
    · rw [Bytecode.words, Bytecode.words, hcode]
    · exact run_eq_of_code ⟨c, stack⟩ hcompile hcompile' hcode hsize rfl
  | overflow k =>
    obtain rfl : k = c := (Rules.program_composed _).overflow_eq hr
    exact .inr (.inl ⟨compile_eq_error.2 ⟨_, hr⟩, compile_eq_error.2 ⟨_, hr'⟩⟩)
  | misplaced expected h =>
    obtain ⟨i, hi, hi'⟩ := h.index
    exact .inr (.inr ⟨i, _, _, expected, hi, hi', compile_eq_error.2 ⟨_, hr⟩,
      compile_eq_error.2 ⟨_, hr'⟩⟩)

/-- Blanks, lines, leading zeros and names differ; the code does not. -/
theorem compile_respects_renaming_layout : ∃ b b',
    compile "f(n)\x7breturn n*7;\x7d" 64 = .ok b ∧
    compile "fac ( x )\n\x7b return\tx * 007 ; \x7d" 64 = .ok b' ∧
    b'.words = b.words ∧ b'.symbols.names.toList = ["fac", "x"] := by
  have hlexes := (TokenStream.ofSource_eof_iff "f(n)\x7breturn n*7;\x7d"
    [.ident "f" 0, .punct .lparen, .ident "n" 1, .punct .rparen, .punct .lbrace, .keyword .returnK,
      .ident "n" 1, .punct .star, .number 7, .punct .semicolon, .punct .rbrace] _).2
    ⟨⟨⟨1, 18⟩, by decide +kernel⟩, by decide +kernel, rfl⟩
  have hlexes' := (TokenStream.ofSource_eof_iff "fac ( x )\n\x7b return\tx * 007 ; \x7d"
    [.ident "fac" 0, .punct .lparen, .ident "x" 1, .punct .rparen, .punct .lbrace, .keyword .returnK,
      .ident "x" 1, .punct .star, .number 7, .punct .semicolon, .punct .rbrace] _).2
    ⟨⟨⟨2, 21⟩, by decide +kernel⟩, by decide +kernel, rfl⟩
  have hnames : (compile "f(n)\x7breturn n*7;\x7d" 64).toOption.map (·.symbols.names.toList) =
      some ["f", "n"] := by
    decide +kernel
  obtain ⟨b, hb, hnames⟩ := Option.map_eq_some_iff.1 hnames
  have hcompile := eq_ok_of_toOption hb
  have hcorresponds : List.Forall₂ (Token.Corresponds fun x => if x = "f" then "fac" else "x")
      [.ident "f" 0, .punct .lparen, .ident "n" 1, .punct .rparen, .punct .lbrace, .keyword .returnK,
        .ident "n" 1, .punct .star, .number 7, .punct .semicolon, .punct .rbrace]
      [.ident "fac" 0, .punct .lparen, .ident "x" 1, .punct .rparen, .punct .lbrace,
        .keyword .returnK, .ident "x" 1, .punct .star, .number 7, .punct .semicolon,
        .punct .rbrace] := by
    repeat' constructor
  obtain ⟨b₁, b', h, h', -, hwords, -, -, hsymbols, -⟩ | ⟨h, -⟩ | ⟨_, _, _, _, -, -, h, -⟩ :=
    compile_respects_renaming hlexes hlexes' hcorresponds (by decide +kernel) 64
  · obtain rfl : b = b₁ := Except.ok.inj (hcompile.symm.trans h)
    exact ⟨b, b', h, h', hwords, by rw [hsymbols, hnames]; rfl⟩
  · rw [hcompile] at h
    cases h
  · rw [hcompile] at h
    cases h

end Solo
