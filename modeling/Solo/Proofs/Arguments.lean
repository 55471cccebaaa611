import Solo.CommandLine.Options
import Solo.Proofs.Actions

/-! How arguments are read. From left to right they are taken in parts: a flag, a size flag with
whatever stands behind it, or a positional argument. The first part that is not acceptable decides how
reading fails. Else only the positional arguments count, whether the listing is asked for, and the last
size of each kind, so flags may stand anywhere among the positional arguments. -/

namespace Solo

def Limits.size (l : Limits) : SizeFlag → Nat
  | .code => l.code
  | .stack => l.stack

namespace Options

/-- An argument that is not a flag. -/
structure Positional where
  text : String
  plain : text ∉ ["--disasm", "--code-size", "--stack-size", "-h", "--help"]

inductive Part where
  | disasm
  | size (flag : SizeFlag) (value : String)
  /-- A size flag behind which nothing stands. -/
  | bare (flag : SizeFlag)
  | help (short : Bool)
  | positional (p : Positional)

namespace Part

def strings : Part → List String
  | .disasm => ["--disasm"]
  | .size flag value => [flag.text, value]
  | .bare flag => [flag.text]
  | .help short => [if short then "-h" else "--help"]
  | .positional p => [p.text]

/-- Why the part is not acceptable, if it is not. -/
def failure? : Part → Option CommandError
  | .help _ => some .usage
  | .bare flag => some (.missingSize flag)
  | .size flag value => Solo.failure? ((Numeral.size value.toList).mapError (.badSize flag value))
  | .disasm | .positional _ => none

def positional? : Part → Option String
  | .positional p => some p.text
  | _ => none

/-- What stands behind `flag`, if the part is that flag. -/
def value? (flag : SizeFlag) : Part → Option String
  | .size f value => if f = flag then some value else none
  | _ => none

end Part

/-- The parts that `args` are read in. Only the last can lack its size. -/
inductive ReadAs : (args : List String) → List Part → Prop where
  | nil : ReadAs [] []
  | bare (flag : SizeFlag) : ReadAs [flag.text] [.bare flag]
  | cons {p : Part} {args : List String} {ps : List Part} (h : ∀ flag, p ≠ .bare flag)
      (rest : ReadAs args ps) : ReadAs (p.strings ++ args) (p :: ps)

/-- Of the values that stand behind the flags for a size the last is that of `n`; if there is none, `n`
is what it was. -/
structure LastCounts (values : List String) (was n : Nat) : Prop where
  last : ∀ value, values.getLast? = some value → Numeral.size value.toList = .ok n
  unsaid : values = [] → n = was

theorem LastCounts.cons {value : String} {values : List String} {was m n : Nat}
    (hvalue : Numeral.size value.toList = .ok m) (h : LastCounts values m n) :
    LastCounts (value :: values) was n := by
  refine ⟨fun v hv => ?_, fun hnil => absurd hnil (List.cons_ne_nil _ _)⟩
  by_cases hnil : values = []
  · rw [hnil, List.getLast?_singleton] at hv
    obtain rfl := Option.some.inj hv
    rw [h.unsaid hnil, hvalue]
  · rw [List.getLast?_cons_of_ne_nil hnil] at hv
    exact h.last v hv

theorem LastCounts.unique {values : List String} {was n n' : Nat} (h : LastCounts values was n)
    (h' : LastCounts values was n') : n = n' := by
  cases hlast : values.getLast? with
  | none =>
    have hnil := List.getLast?_eq_none_iff.1 hlast
    rw [h.unsaid hnil, h'.unsaid hnil]
  | some value =>
    have hvalue := h.last value hlast
    rw [h'.last value hlast] at hvalue
    exact (Except.ok.inj hvalue).symm

/-- Flags have been moved among the positional arguments, but not past a flag for the same size. -/
structure Rearranged (ps qs : List Part) : Prop where
  perm : qs.Perm ps
  positionals : qs.filterMap Part.positional? = ps.filterMap Part.positional?
  sizes : ∀ flag, qs.filterMap (Part.value? flag) = ps.filterMap (Part.value? flag)

namespace Gathered

/-- What has been said when one more part is accepted. -/
def add (g : Gathered) : Part → Gathered
  | .disasm => { g with disasm := true }
  | .size flag value => ((Numeral.size value.toList).toOption.map (g.setSize · flag)).getD g
  | .positional p => { g with positionals := g.positionals ++ [p.text] }
  | .bare _ | .help _ => g

theorem ext {g g' : Gathered} (hpositionals : g.positionals = g'.positionals)
    (hdisasm : g.disasm = g'.disasm) (hsize : ∀ flag, g.limits.size flag = g'.limits.size flag) :
    g = g' := by
  obtain ⟨positionals, disasm, code, stack⟩ := g
  obtain ⟨positionals', disasm', code', stack'⟩ := g'
  obtain rfl : positionals = positionals' := hpositionals
  obtain rfl : disasm = disasm' := hdisasm
  obtain rfl : code = code' := hsize .code
  obtain rfl : stack = stack' := hsize .stack
  rfl

variable (g : Gathered)

theorem size_setSize (n : Nat) (flag flag' : SizeFlag) :
    (g.setSize n flag).limits.size flag' = if flag = flag' then n else g.limits.size flag' := by
  cases flag <;> cases flag' <;> rfl

theorem positionals_add (p : Part) :
    (g.add p).positionals = g.positionals ++ p.positional?.toList := by
  cases p with
  | size flag value =>
    rw [add]
    cases (Numeral.size value.toList).toOption <;> cases flag <;> exact (List.append_nil _).symm
  | positional p => rfl
  | _ => exact (List.append_nil _).symm

theorem disasm_add (p : Part) : (g.add p).disasm = true ↔ g.disasm = true ∨ .disasm = p := by
  cases p with
  | size flag value =>
    rw [add]
    cases (Numeral.size value.toList).toOption <;> cases flag <;> simp [setSize]
  | _ => simp [add]

theorem size_add_of_none {p : Part} {flag : SizeFlag} (h : p.value? flag = none) :
    (g.add p).limits.size flag = g.limits.size flag := by
  cases p with
  | size f value =>
    have hf : f ≠ flag := fun hf => by simp [Part.value?, hf] at h
    rw [add]
    cases (Numeral.size value.toList).toOption with
    | none => rfl
    | some n => exact (size_setSize g n f flag).trans (if_neg hf)
  | _ => rfl

theorem size_add_of_some {p : Part} {flag : SizeFlag} {value : String} (hp : p.failure? = none)
    (h : p.value? flag = some value) :
    Numeral.size value.toList = .ok ((g.add p).limits.size flag) := by
  cases p with
  | size f v =>
    obtain ⟨rfl, rfl⟩ : f = flag ∧ v = value := by simpa [Part.value?] using h
    cases hvalue : Numeral.size v.toList with
    | ok n =>
      rw [add, hvalue]
      exact congrArg Except.ok ((size_setSize g n f f).trans (if_pos rfl)).symm
    | error cause =>
      rw [Part.failure?, hvalue] at hp
      cases hp
  | _ => cases h

theorem positionals_foldl (ps : List Part) :
    (ps.foldl add g).positionals = g.positionals ++ ps.filterMap Part.positional? := by
  induction ps generalizing g with
  | nil => exact (List.append_nil _).symm
  | cons p ps ih =>
    rw [List.foldl_cons, ih, positionals_add, List.append_assoc]
    cases hp : p.positional? <;> simp [hp]

theorem disasm_foldl (ps : List Part) :
    (ps.foldl add g).disasm = true ↔ g.disasm = true ∨ .disasm ∈ ps := by
  induction ps generalizing g with
  | nil => simp
  | cons p ps ih => rw [List.foldl_cons, ih, disasm_add, List.mem_cons, or_assoc]

end Gathered

/-- Parts for other sizes change nothing, and of those for this size the last counts. -/
theorem lastCounts_foldl (flag : SizeFlag) (g : Gathered) {ps : List Part}
    (hps : ∀ p ∈ ps, p.failure? = none) : LastCounts (ps.filterMap (Part.value? flag))
      (g.limits.size flag) ((ps.foldl Gathered.add g).limits.size flag) := by
  induction ps generalizing g with
  | nil => exact ⟨fun _ h => (by cases h), fun _ => rfl⟩
  | cons p ps ih =>
    obtain ⟨hp, hps⟩ := List.forall_mem_cons.1 hps
    have hrest := ih (g.add p) hps
    cases hvalue : p.value? flag with
    | none =>
      rw [g.size_add_of_none hvalue] at hrest
      rw [List.filterMap_cons_none hvalue]
      exact hrest
    | some value =>
      rw [List.filterMap_cons_some hvalue]
      exact hrest.cons (g.size_add_of_some hp hvalue)

theorem gather_positional (g : Gathered) (p : Positional) (args : List String) :
    gather g (p.text :: args) = gather { g with positionals := g.positionals ++ [p.text] } args := by
  obtain ⟨text, hplain⟩ := p
  simp only [List.mem_cons, List.not_mem_nil, not_or] at hplain
  obtain ⟨hdisasm, hcode, hstack, hshort, hlong, -⟩ := hplain
  have hflag : sizeFlag? text = none := by
    unfold sizeFlag?
    split <;> simp_all
  simp [gather, hdisasm, hshort, hlong, hflag]

theorem gather_size (g : Gathered) (flag : SizeFlag) (value : String) (args : List String) :
    gather g (flag.text :: value :: args) =
      size flag value >>= fun n => gather (g.setSize n flag) args := by
  cases flag <;> rfl

theorem gather_accepted {p : Part} (hp : p.failure? = none) (g : Gathered) (args : List String) :
    gather g (p.strings ++ args) = gather (g.add p) args := by
  cases p with
  | disasm => rfl
  | size flag value =>
    have hsize := gather_size g flag value args
    cases hvalue : Numeral.size value.toList with
    | ok n =>
      rw [size, hvalue] at hsize
      rw [Gathered.add, hvalue]
      exact hsize
    | error cause =>
      rw [Part.failure?, hvalue] at hp
      cases hp
  | bare flag => cases hp
  | help short => cases hp
  | positional p => exact gather_positional g p args

theorem gather_failing {p : Part} {e : CommandError} (hp : p.failure? = some e)
    (hbare : ∀ flag, p ≠ .bare flag) (g : Gathered) (args : List String) :
    gather g (p.strings ++ args) = .error e := by
  cases p with
  | disasm => cases hp
  | size flag value =>
    have hsize := gather_size g flag value args
    cases hvalue : Numeral.size value.toList with
    | ok n =>
      rw [Part.failure?, hvalue] at hp
      cases hp
    | error cause =>
      rw [Part.failure?, hvalue] at hp
      rw [size, hvalue] at hsize
      cases hp
      exact hsize
  | bare flag => exact absurd rfl (hbare flag)
  | help short =>
    cases hp
    cases short <;> rfl
  | positional p => cases hp

/-- Whatever the arguments are, they can be read in parts. -/
theorem exists_readAs (args : List String) : ∃ ps, ReadAs args ps := by
  match args with
  | [] => exact ⟨[], .nil⟩
  | arg :: args =>
    obtain ⟨ps, hps⟩ := exists_readAs args
    have hsize (flag : SizeFlag) : ∃ ps, ReadAs (flag.text :: args) ps := by
      match args with
      | [] => exact ⟨[.bare flag], .bare flag⟩
      | value :: rest =>
        obtain ⟨ps, hps⟩ := exists_readAs rest
        exact ⟨.size flag value :: ps, .cons (p := .size flag value) (by simp) hps⟩
    by_cases hflag : arg ∈ ["--disasm", "--code-size", "--stack-size", "-h", "--help"]
    · simp only [List.mem_cons, List.not_mem_nil, or_false] at hflag
      rcases hflag with rfl | rfl | rfl | rfl | rfl
      · exact ⟨.disasm :: ps, .cons (p := .disasm) (by simp) hps⟩
      · exact hsize .code
      · exact hsize .stack
      · exact ⟨.help true :: ps, .cons (p := .help true) (by simp) hps⟩
      · exact ⟨.help false :: ps, .cons (p := .help false) (by simp) hps⟩
    · exact ⟨.positional ⟨arg, hflag⟩ :: ps, .cons (p := .positional ⟨arg, hflag⟩) (by simp) hps⟩
  termination_by args.length

namespace ReadAs

variable {args : List String} {ps : List Part}

theorem gather_ok (h : ReadAs args ps) (hps : ∀ p ∈ ps, p.failure? = none) (g : Gathered) :
    gather g args = .ok (ps.foldl Gathered.add g) := by
  induction h generalizing g with
  | nil => rfl
  | bare flag => cases hps _ List.mem_cons_self
  | cons _ _ ih =>
    obtain ⟨hp, hps⟩ := List.forall_mem_cons.1 hps
    rw [gather_accepted hp, ih hps, List.foldl_cons]

/-- What stands behind the first part that fails is not looked at. -/
theorem gather_error (h : ReadAs args ps) {before after : List Part} {p : Part} {e : CommandError}
    (hsplit : ps = before ++ p :: after) (hbefore : ∀ q ∈ before, q.failure? = none)
    (hp : p.failure? = some e) (g : Gathered) : gather g args = .error e := by
  induction h generalizing before g with
  | nil => simp at hsplit
  | bare flag =>
    cases before with
    | nil =>
      obtain ⟨rfl, -⟩ := List.cons.inj hsplit
      cases hp
      cases flag <;> rfl
    | cons q before => simp at hsplit
  | cons hbare _ ih =>
    cases before with
    | nil =>
      obtain ⟨rfl, -⟩ := List.cons.inj hsplit
      exact gather_failing hp hbare g _
    | cons q before =>
      obtain ⟨rfl, hrest⟩ := List.cons.inj hsplit
      obtain ⟨hq, hbefore⟩ := List.forall_mem_cons.1 hbefore
      rw [gather_accepted hq]
      exact ih hrest hbefore _

end ReadAs

/-- Acceptable parts are read as themselves, in whatever order they are written. -/
theorem readAs_strings {ps : List Part} (hps : ∀ p ∈ ps, p.failure? = none) :
    ReadAs (ps.flatMap Part.strings) ps := by
  induction ps with
  | nil => exact .nil
  | cons p ps ih =>
    obtain ⟨hp, hps⟩ := List.forall_mem_cons.1 hps
    refine .cons (fun flag hbare => ?_) (ih hps)
    rw [hbare] at hp
    cases hp

section

variable {args : List String} {g : Gathered}

theorem ofArgs_usage (h : gather {} args = .ok g) (hcount : g.positionals.length ≠ 2) :
    ofArgs args = .error .usage := by
  obtain ⟨positionals, disasm, limits⟩ := g
  rw [ofArgs, h]
  cases positionals with
  | nil => rfl
  | cons source rest =>
    cases rest with
    | nil => rfl
    | cons arg rest =>
      cases rest with
      | nil => exact absurd rfl hcount
      | cons _ _ => rfl

theorem ofArgs_two (h : gather {} args = .ok g) {source arg : String}
    (hpositionals : g.positionals = [source, arg]) :
    ofArgs args = ((Numeral.word arg.toList).mapError (.badArgument arg)).map fun value =>
      { source, arg := value, disasm := g.disasm, limits := g.limits } := by
  obtain ⟨positionals, disasm, limits⟩ := g
  obtain rfl : positionals = [source, arg] := hpositionals
  rw [ofArgs, h]
  rfl

end

/-- Where flags stand among the positional arguments makes no difference. -/
theorem Rearranged.foldl_eq {ps qs : List Part} (h : Rearranged ps qs)
    (hps : ∀ p ∈ ps, p.failure? = none) (hqs : ∀ q ∈ qs, q.failure? = none) (g : Gathered) :
    qs.foldl Gathered.add g = ps.foldl Gathered.add g := by
  apply Gathered.ext
  · rw [g.positionals_foldl, g.positionals_foldl, h.positionals]
  · rw [Bool.eq_iff_iff, g.disasm_foldl, g.disasm_foldl, h.perm.mem_iff]
  · intro flag
    have hcounts := lastCounts_foldl flag g hqs
    rw [h.sizes flag] at hcounts
    exact hcounts.unique (lastCounts_foldl flag g hps)

/-- How reading ends is told by the parts: the first that fails decides, and then the number of
positional arguments and whether the second is an integer. Else the parts say what is asked for, and
they do so wherever the flags are moved. -/
theorem ofArgs_by_parts (args : List String) : (∃ ps, ReadAs args ps) ∧ ∀ ps, ReadAs args ps →
    (∀ before p after e, ps = before ++ p :: after → (∀ q ∈ before, q.failure? = none) →
      p.failure? = some e → ofArgs args = .error e ∧
        ∀ flag, p = .bare flag → e.message = flag.text ++ " needs a value") ∧
    ((∀ p ∈ ps, p.failure? = none) →
      ((ps.filterMap Part.positional?).length ≠ 2 → ofArgs args = .error .usage) ∧
      (∀ source arg, ps.filterMap Part.positional? = [source, arg] →
        (∀ cause, Numeral.word arg.toList = .error cause →
          ofArgs args = .error (.badArgument arg cause) ∧
          (CommandError.badArgument arg cause).message = "argument '" ++ arg ++ "' is not an integer") ∧
        (∀ value, Numeral.word arg.toList = .ok value → ∃ o, ofArgs args = .ok o ∧
          o.source = source ∧ o.arg = value ∧ (o.disasm = true ↔ .disasm ∈ ps) ∧
          ∀ flag, LastCounts (ps.filterMap (Part.value? flag)) (Limits.size {} flag)
            (o.limits.size flag))) ∧
      ∀ qs, Rearranged ps qs → ofArgs (qs.flatMap Part.strings) = ofArgs args) := by
  refine ⟨exists_readAs args, fun ps h => ⟨fun before p after e hsplit hbefore hp => ⟨?_, ?_⟩,
    fun hps => ?_⟩⟩
  · rw [ofArgs, h.gather_error hsplit hbefore hp]
    rfl
  · rintro flag rfl
    cases hp
    rfl
  · have hgather := h.gather_ok hps {}
    have hpositionals : (ps.foldl Gathered.add {}).positionals = ps.filterMap Part.positional? :=
      Gathered.positionals_foldl {} ps
    refine ⟨fun hcount => ofArgs_usage hgather (hpositionals ▸ hcount), fun source arg htwo => ?_,
      fun qs hqs => ?_⟩
    · have hofArgs := ofArgs_two hgather (hpositionals.trans htwo)
      refine ⟨fun cause hcause => ⟨?_, rfl⟩, fun value hvalue => ?_⟩
      · rw [hofArgs, hcause]
        rfl
      · rw [hvalue] at hofArgs
        have hdisasm := Gathered.disasm_foldl {} ps
        exact ⟨_, hofArgs, rfl, rfl, by simpa using hdisasm, fun flag => lastCounts_foldl flag {} hps⟩
    · have hmoved : ∀ q ∈ qs, q.failure? = none := fun q hq => hps q (hqs.perm.mem_iff.1 hq)
      rw [ofArgs, ofArgs, hgather, (readAs_strings hmoved).gather_ok hmoved {},
        hqs.foldl_eq hps hmoved]

/-- A size is given twice, and in the second list what stands behind a size flag looks like a flag. -/
theorem ofArgs_by_parts_repeated :
    (∃ o, ofArgs ["--stack-size", "64", "a.mini", "--disasm", "-3", "--stack-size", "+7"] = .ok o ∧
      o.source = "a.mini" ∧ o.arg = -3 ∧ o.disasm = true ∧ o.limits.stack = 7 ∧ o.limits.code = 1000) ∧
    ofArgs ["a.mini", "--stack-size", "64", "--disasm", "-3", "--stack-size", "+7"] =
      ofArgs ["--stack-size", "64", "a.mini", "--disasm", "-3", "--stack-size", "+7"] ∧
    ofArgs ["a.mini", "--code-size", "--disasm", "-h"] =
      .error (.badSize .code "--disasm" .invalidDigit) := by
  have hsource : "a.mini" ∉ ["--disasm", "--code-size", "--stack-size", "-h", "--help"] := by decide
  have harg : "-3" ∉ ["--disasm", "--code-size", "--stack-size", "-h", "--help"] := by decide
  have hps : ∀ p ∈ [Part.size .stack "64", .positional ⟨"a.mini", hsource⟩, .disasm,
      .positional ⟨"-3", harg⟩, .size .stack "+7"], p.failure? = none := by
    simp only [List.forall_mem_cons]
    exact ⟨by decide +kernel, rfl, rfl, rfl, by decide +kernel, by simp⟩
  obtain ⟨-, hparts⟩ := ofArgs_by_parts
    ["--stack-size", "64", "a.mini", "--disasm", "-3", "--stack-size", "+7"]
  obtain ⟨-, haccepted⟩ := hparts _ (readAs_strings hps)
  obtain ⟨-, htwo, hmoved⟩ := haccepted hps
  obtain ⟨-, hok⟩ := htwo "a.mini" "-3" rfl
  obtain ⟨o, ho, hsource', hvalue, hdisasm, hcounts⟩ :=
    hok (-3) (eq_ok_of_toOption (by decide +kernel))
  refine ⟨⟨o, ho, hsource', hvalue, hdisasm.2 (by simp), ?_, (hcounts .code).unsaid rfl⟩, ?_, ?_⟩
  · have hlast := (hcounts .stack).last "+7" rfl
    have hseven : Numeral.size "+7".toList = .ok 7 := eq_ok_of_toOption (by decide +kernel)
    rw [hseven] at hlast
    exact (Except.ok.inj hlast).symm
  · exact hmoved [.positional ⟨"a.mini", hsource⟩, .size .stack "64", .disasm,
      .positional ⟨"-3", harg⟩, .size .stack "+7"]
      ⟨.swap _ _ _, rfl, fun flag => by cases flag <;> rfl⟩
  · obtain ⟨-, hparts⟩ := ofArgs_by_parts ["a.mini", "--code-size", "--disasm", "-h"]
    have hread : ReadAs ["a.mini", "--code-size", "--disasm", "-h"]
        [.positional ⟨"a.mini", hsource⟩, .size .code "--disasm", .help true] :=
      .cons (p := .positional ⟨"a.mini", hsource⟩) (by simp)
        (.cons (p := .size .code "--disasm") (by simp) (.cons (p := .help true) (by simp) .nil))
    exact ((hparts _ hread).1 [.positional ⟨"a.mini", hsource⟩] (.size .code "--disasm")
      [.help true] _ rfl (by simp [Part.failure?]) (by decide +kernel)).1

end Options

end Solo
