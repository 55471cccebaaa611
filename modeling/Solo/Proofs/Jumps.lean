import Solo.Proofs.WellFormed

/-! Where compiled code goes. Every target is the address of an instruction of the function; calls go to
its start, branches go forward, and the only jumps back are those that close a loop, which go to the
first instruction of its condition. -/

namespace Solo

open Bytecode (bodyAddr addressedFrom)

namespace Grammar

mutual

/-- The statements in a statement, itself the first, with the addresses at which their code starts when
the code of the whole starts at `addr`. -/
def Statement.places : Statement → (addr : Nat) → List (Nat × Statement)
  | .assign name e, addr => [(addr, .assign name e)]
  | .ifElse c yes no, addr =>
    (addr, .ifElse c yes no) ::
      (yes.places (addr + c.size) ++ no.places (addr + c.size + yes.size + 2))
  | .whileDo c body, addr => (addr, .whileDo c body) :: body.places (addr + c.size)
  | .ret e, addr => [(addr, .ret e)]
  | .block b, addr => (addr, .block b) :: b.places addr
  | .skip, addr => [(addr, .skip)]

def Block.places : Block → (addr : Nat) → List (Nat × Statement)
  | .nil, _ => []
  | .cons s b, addr => s.places addr ++ b.places (addr + s.size)

end

/-- The statements of a program with the addresses of their code. -/
def Program.places (p : Program) : List (Nat × Statement) := p.body.places bodyAddr

section

variable {slot : String → Nat} {body : List Instruction} {part : Statement} {place : Nat}

mutual

/-- The code of a part stands where it is said to start, with no operands before it. -/
theorem Statement.standsAt : (s : Statement) → (addr : Nat) → StandsAt body addr (s.code slot addr) →
    (place, part) ∈ s.places addr → StandsAt body place (part.code slot place)
  | .assign name e, addr, h, hpart | .ret e, addr, h, hpart | .skip, addr, h, hpart => by
    obtain ⟨rfl, rfl⟩ := Prod.mk.inj (List.mem_singleton.1 hpart)
    exact h
  | .ifElse c yes no, addr, h, hpart => by
    rw [Statement.places, List.mem_cons, List.mem_append] at hpart
    rcases hpart with hself | hyes | hno
    · obtain ⟨rfl, rfl⟩ := Prod.mk.inj hself
      exact h
    · rw [Statement.code] at h
      have hat := h.left.left.right (c.depth_code _)
      rw [Condition.width_code] at hat
      exact yes.standsAt _ hat hyes
    · rw [Statement.code] at h
      have hat := h.right (by
        rw [depth_append, depth_append, c.depth_code, yes.depth_code]
        rfl)
      rw [width_append, width_append, Condition.width_code, Statement.width_code, ← Nat.add_assoc,
        ← Nat.add_assoc] at hat
      exact no.standsAt _ hat hno
  | .whileDo c s, addr, h, hpart => by
    rw [Statement.places, List.mem_cons] at hpart
    rcases hpart with hself | hbody
    · obtain ⟨rfl, rfl⟩ := Prod.mk.inj hself
      exact h
    · rw [Statement.code] at h
      have hat := h.left.right (c.depth_code _)
      rw [Condition.width_code] at hat
      exact s.standsAt _ hat hbody
  | .block b, addr, h, hpart => by
    rw [Statement.places, List.mem_cons] at hpart
    rcases hpart with hself | hbody
    · obtain ⟨rfl, rfl⟩ := Prod.mk.inj hself
      exact h
    · exact b.standsAt addr h hbody

theorem Block.standsAt : (b : Block) → (addr : Nat) → StandsAt body addr (b.code slot addr) →
    (place, part) ∈ b.places addr → StandsAt body place (part.code slot place)
  | .nil, _, _, hpart => absurd hpart List.not_mem_nil
  | .cons s b, addr, h, hpart => by
    rw [Block.code] at h
    have hrest := h.right (s.depth_code addr)
    rw [Statement.width_code] at hrest
    exact (List.mem_append.1 hpart).elim (s.standsAt addr h.left) (b.standsAt _ hrest)

end

/-- So does that of a statement of a program. -/
theorem Program.standsAt (p : Program) (h : (place, part) ∈ p.places) :
    StandsAt (p.body.code slot bodyAddr ++ [.nop]) place (part.code slot place) :=
  p.body.standsAt bodyAddr ⟨[], [.nop], rfl, rfl, rfl, by simp⟩ h

end

/-- The instruction at `addr` calls the function, goes forward, or closes one of the loops in
`places`. -/
def Directed (places : List (Nat × Statement)) (addr : Nat) : Instruction → Prop
  | .branch _ target => addr < target
  | .goto target => addr < target ∨
      ∃ c body, (target, .whileDo c body) ∈ places ∧ addr = target + c.size + body.size
  | .call target => target = bodyAddr
  | _ => True

/-- So do all instructions of code that starts at `addr`. -/
def AllDirected (places : List (Nat × Statement)) (addr : Nat) (is : List Instruction) : Prop :=
  ∀ at_ i, (at_, i) ∈ addressedFrom addr is → Directed places at_ i

section

variable {places places' : List (Nat × Statement)} {addr : Nat} {is js : List Instruction}

theorem AllDirected.mono (h : AllDirected places addr is) (hsub : places ⊆ places') :
    AllDirected places' addr is := by
  intro at_ i hi
  have hdirected := h at_ i hi
  cases i with
  | branch test target => exact hdirected
  | goto target =>
    rcases hdirected with hlt | ⟨c, body, hmem, haddr⟩
    · exact .inl hlt
    · exact .inr ⟨c, body, hsub hmem, haddr⟩
  | call target => exact hdirected
  | _ => trivial

theorem AllDirected.append (h : AllDirected places addr is)
    (h' : AllDirected places (addr + width is) js) : AllDirected places addr (is ++ js) := by
  intro at_ i hi
  rw [addressedFrom_append] at hi
  exact (List.mem_append.1 hi).elim (h at_ i) (h' at_ i)

theorem AllDirected.singleton {i : Instruction} (h : Directed places addr i) :
    AllDirected places addr [i] := by
  intro at_ j hj
  obtain ⟨rfl, rfl⟩ := Prod.mk.inj (List.mem_singleton.1 hj)
  exact h

end

variable (slot : String → Nat)

mutual

/-- The code of an expression goes nowhere but to the function. -/
theorem Expression.directed : (e : Expression) → (places : List (Nat × Statement)) → (addr : Nat) →
    AllDirected places addr (e.code slot)
  | .term t, places, addr => t.directed places addr
  | .sum e _ t, places, addr =>
    ((e.directed places addr).append (t.directed places _)).append (.singleton trivial)

theorem Term.directed : (t : Term) → (places : List (Nat × Statement)) → (addr : Nat) →
    AllDirected places addr (t.code slot)
  | .factor f, places, addr => f.directed places addr
  | .product f _ t, places, addr =>
    ((f.directed places addr).append (t.directed places _)).append (.singleton trivial)

theorem Factor.directed : (f : Factor) → (places : List (Nat × Statement)) → (addr : Nat) →
    AllDirected places addr (f.code slot)
  | .number _, _, _ => .singleton trivial
  | .name _, _, _ => .singleton trivial
  | .group e, places, addr => e.directed places addr
  | .call _ arg, places, addr => (arg.directed places addr).append (.singleton rfl)

end

theorem Condition.directed (c : Condition) (places : List (Nat × Statement)) {addr otherwise : Nat}
    (h : addr + c.size ≤ otherwise) : AllDirected places addr (c.code slot otherwise) := by
  have hoperands := (c.left.directed slot places addr).append (c.right.directed slot places _)
  refine hoperands.append (.singleton ?_)
  change addr + width (c.left.code slot ++ c.right.code slot) < otherwise
  rw [width_append, Expression.width_code, Expression.width_code]
  rw [Condition.size] at h
  omega

mutual

theorem Statement.directed : (s : Statement) → (addr : Nat) →
    AllDirected (s.places addr) addr (s.code slot addr)
  | .assign name e, addr => (e.directed slot _ addr).append (.singleton trivial)
  | .ifElse c yes no, addr => by
    rw [Statement.code, Statement.places]
    have hyes : AllDirected _ (addr + c.size) _ := (yes.directed (addr + c.size)).mono
      (List.subset_cons_of_subset (addr, .ifElse c yes no) (List.subset_append_left _
        (no.places (addr + c.size + yes.size + 2))))
    have hno := (no.directed (addr + c.size + yes.size + 2)).mono
      (List.subset_cons_of_subset (addr, .ifElse c yes no) (List.subset_append_right
        (yes.places (addr + c.size)) _))
    refine (((c.directed slot _ (by omega)).append ?_).append (.singleton ?_)).append ?_
    · rw [Condition.width_code]
      exact hyes
    · left
      rw [width_append, Condition.width_code, Statement.width_code]
      omega
    · rw [width_append, width_append, Condition.width_code, Statement.width_code, ← Nat.add_assoc,
        ← Nat.add_assoc]
      exact hno
  | .whileDo c body, addr => by
    rw [Statement.code, Statement.places]
    have hbody := (body.directed (addr + c.size)).mono
      (List.subset_cons_of_subset (addr, .whileDo c body) (List.Subset.refl _))
    refine ((c.directed slot _ (by omega)).append ?_).append (.singleton ?_)
    · rw [Condition.width_code]
      exact hbody
    · -- the one jump that goes back
      right
      refine ⟨c, body, List.mem_cons_self, ?_⟩
      rw [width_append, Condition.width_code, Statement.width_code, Nat.add_assoc]
  | .ret e, addr => (e.directed slot _ addr).append (.singleton trivial)
  | .block b, addr => (b.directed addr).mono (List.subset_cons_of_subset _ (List.Subset.refl _))
  | .skip, _ => fun _ _ h => absurd h List.not_mem_nil

theorem Block.directed : (b : Block) → (addr : Nat) →
    AllDirected (b.places addr) addr (b.code slot addr)
  | .nil, _ => fun _ _ h => absurd h List.not_mem_nil
  | .cons s b, addr => by
    rw [Block.code, Block.places]
    refine ((s.directed addr).mono (List.subset_append_left _ _)).append ?_
    rw [Statement.width_code]
    exact (b.directed _).mono (List.subset_append_right _ _)

end

theorem Program.directed (p : Program) : AllDirected p.places 0 (p.code slot) := by
  have hstart : AllDirected p.places 0 ([.call bodyAddr] ++ [.stop]) :=
    AllDirected.append (.singleton rfl) (.singleton trivial)
  exact (hstart.append (p.body.directed slot bodyAddr)).append (.singleton trivial)

end Grammar

open Grammar

/-- A place at which code lands is the address of an instruction behind the call and the stop. -/
theorem Lands.mem_addressed {b : Bytecode} {body : List Instruction} {target : Nat}
    (h : Lands body target) (hb : b.instructions = .call bodyAddr :: .stop :: body) :
    ∃ j, (target, j) ∈ b.addressed := by
  obtain ⟨pre, post, rfl, rfl, -, hpost⟩ := h
  obtain ⟨j, post, rfl⟩ := List.exists_cons_of_ne_nil hpost
  exact ⟨j, Bytecode.mem_addressed_of_body hb⟩

theorem Bytecode.lt_wordCount {b : Bytecode} {addr : Nat} {i : Instruction}
    (h : (addr, i) ∈ b.addressed) : addr < b.wordCount := by
  obtain ⟨pre, post, hb, rfl⟩ := exists_of_mem_addressedFrom h
  have hpos := i.width_pos
  rw [wordCount, hb, width_append, width_cons]
  omega

/-- Jumps and calls of checked code land in it. -/
theorem Checked.lands {body : List Instruction} {frameSize target : Nat} {i : Instruction}
    (h : Checked body frameSize 0 body) (hi : i ∈ body) (htarget : i.target? = some target) :
    Lands body target := by
  obtain ⟨pre, post, hbody⟩ := List.append_of_mem hi
  rw [congrArg (Checked body frameSize 0) hbody] at h
  have hlegal := h.legal.target
  cases i with
  | branch test addr =>
    obtain rfl : addr = target := Option.some.inj htarget
    exact hlegal.2
  | goto addr =>
    obtain rfl : addr = target := Option.some.inj htarget
    exact hlegal.2
  | call addr =>
    obtain rfl : addr = target := Option.some.inj htarget
    exact ⟨[], body, rfl, hlegal, rfl, List.ne_nil_of_mem hi⟩
  | _ => cases htarget

theorem Grammar.Program.lands (p : Program) {slot : String → Nat} {frameSize target : Nat}
    {i : Instruction} (h : ∀ t ∈ p.tokens slot, t.InFrame slot frameSize) (hi : i ∈ p.code slot)
    (htarget : i.target? = some target) :
    Lands (p.body.code slot bodyAddr ++ [.nop]) target := by
  rw [Program.code, List.append_assoc, List.mem_append] at hi
  rcases hi with hstart | hbody
  · -- of the two instructions before the body only the call has a target
    simp only [List.mem_cons, List.not_mem_nil, or_false] at hstart
    rcases hstart with rfl | rfl
    · obtain rfl : bodyAddr = target := Option.some.inj htarget
      exact ⟨[], _, rfl, rfl, rfl, by simp⟩
    · cases htarget
  · exact (p.checked h).lands hbody htarget

/-- The code of a loop of the program stands where the loop is said to start. -/
theorem Grammar.Program.loop_code (p : Program) {slot : String → Nat} {target : Nat} {c : Condition}
    {body : Statement} (h : (target, .whileDo c body) ∈ p.places) :
    ∃ pre post, width pre = target ∧ p.code slot =
      pre ++ (c.code slot (target + c.size + body.size + 2) ++ body.code slot (target + c.size) ++
        [.goto target]) ++ post := by
  have hstands : StandsAt (p.body.code slot bodyAddr ++ [.nop]) target _ := p.standsAt h
  obtain ⟨pre, post, hcode, htarget, -⟩ := hstands
  refine ⟨[.call bodyAddr, .stop] ++ pre, post, ?_, ?_⟩
  · rw [width_append, htarget]
    rfl
  · rw [Program.code, List.append_assoc, hcode, Statement.code]
    simp

/-- All targets of compiled code are addresses of instructions, behind the call and the stop. Calls go to
the function, branches forward, and so do jumps, but for the one that closes the code of a loop: it
goes to the start of this code, where the condition is. -/
theorem compiled_jumps_resolved {source : String} {capacity : Nat} {b : Bytecode}
    (h : compile source capacity = .ok b) :
    ∃ ts symbols, (Scanner.ofSource source).Lexes ts symbols ∧ Sentence (slotIn ts) ts ∧
      ∀ p : Program, p.tokens (slotIn ts) = ts → ∀ addr i, (addr, i) ∈ b.addressed →
        (∀ target, i.target? = some target →
          (∃ j, (target, j) ∈ b.addressed) ∧ target < b.wordCount ∧ 3 ≤ target) ∧
        (∀ target, i = .call target → target = 3) ∧
        (∀ test target, i = .branch test target → addr < target) ∧
        (∀ target, i = .goto target → addr < target ∨
          ∃ c body pre post, (target, .whileDo c body) ∈ p.places ∧ width pre = target ∧
            addr = target + c.size + body.size ∧
            b.instructions = pre ++ (c.code (slotIn ts) (addr + 2) ++
              body.code (slotIn ts) (target + c.size) ++ [.goto target]) ++ post) := by
  obtain ⟨ts, symbols, hlexes, hderives⟩ := derives_of_compile h
  refine ⟨ts, symbols, hlexes, (sentence_iff_derives hlexes).2 hderives, fun p hp addr i hi => ?_⟩
  have hb : b.instructions = p.code (slotIn ts) := by rw [eq_of_compile h hlexes hp]
  rw [Bytecode.addressed, hb] at hi
  have hdirected := p.directed (slotIn ts) addr i hi
  refine ⟨fun target htarget => ?_, ?_, ?_, ?_⟩
  · have hmem : i ∈ p.code (slotIn ts) := by
      obtain ⟨pre, post, hcode, -⟩ := exists_of_mem_addressedFrom hi
      rw [hcode]
      exact List.mem_append_right _ List.mem_cons_self
    have hlands := p.lands (fun t ht => hlexes.inFrame t (hp ▸ ht)) hmem htarget
    obtain ⟨j, hj⟩ := hlands.mem_addressed hb
    obtain ⟨pre, post, -, htarget, -⟩ := hlands
    exact ⟨⟨j, hj⟩, Bytecode.lt_wordCount hj, htarget ▸ Nat.le_add_right _ _⟩
  · rintro target rfl
    exact hdirected
  · rintro test target rfl
    exact hdirected
  · rintro target rfl
    rcases hdirected with hlt | ⟨c, body, hplace, haddr⟩
    · exact .inl hlt
    · obtain ⟨pre, post, hpre, hcode⟩ := p.loop_code hplace
      exact .inr ⟨c, body, pre, post, hplace, hpre, haddr, by rw [hb, hcode, haddr]⟩

theorem compiled_jumps_resolved_nested : ∃ b ts symbols,
    compile "f(n) \x7b while (n > 0) \x7b while (n > k) n = n - 1; if (n == k) return f(k); else ; \x7d \x7d"
      64 = .ok b ∧
    (Scanner.ofSource
      "f(n) \x7b while (n > 0) \x7b while (n > k) n = n - 1; if (n == k) return f(k); else ; \x7d \x7d"
      ).Lexes ts symbols ∧
    Sentence (slotIn ts) ts ∧
    ∀ p : Program, p.tokens (slotIn ts) = ts → ∀ addr target, (addr, .goto target) ∈ b.addressed →
      addr < target ∨ ∃ c body, (target, .whileDo c body) ∈ p.places ∧
        addr = target + c.size + body.size := by
  obtain ⟨b, hb⟩ := Option.isSome_iff_exists.1 (show (compile
    "f(n) \x7b while (n > 0) \x7b while (n > k) n = n - 1; if (n == k) return f(k); else ; \x7d \x7d"
      64).toOption.isSome = true by decide +kernel)
  obtain ⟨ts, symbols, hlexes, hsentence, hjumps⟩ := compiled_jumps_resolved (eq_ok_of_toOption hb)
  refine ⟨b, ts, symbols, eq_ok_of_toOption hb, hlexes, hsentence, fun p hp addr target hmem => ?_⟩
  obtain ⟨-, -, -, hgoto⟩ := hjumps p hp addr _ hmem
  rcases hgoto target rfl with hlt | ⟨c, body, -, -, hplace, -, haddr, -⟩
  · exact .inl hlt
  · exact .inr ⟨c, body, hplace, haddr⟩

end Solo
