import Solo.Proofs.Compilation
import Solo.Proofs.Depth
import Solo.Proofs.Encoding

/-! Compiled code is well formed: behind the call at which a run starts and the stop at which it ends
stands a checked body. Every name takes two words of code, so slots fit into words whenever addresses
do, and nothing is cut when the code is encoded. -/

namespace Solo

open Bytecode (bodyAddr)

namespace Grammar

variable (slot : String → Nat)

/-- How often names are written in `ts`. -/
def nameCount (ts : List Token) : Nat := (ts.filterMap Token.name?).length

@[simp] theorem nameCount_nil : nameCount [] = 0 := rfl

@[simp] theorem nameCount_append (ts us : List Token) :
    nameCount (ts ++ us) = nameCount ts + nameCount us := by
  simp [nameCount]

@[simp] theorem nameCount_ident (x : String) (k : Nat) (ts : List Token) :
    nameCount (.ident x k :: ts) = nameCount ts + 1 := rfl

@[simp] theorem nameCount_punct (p : Punct) (ts : List Token) :
    nameCount (.punct p :: ts) = nameCount ts := rfl

@[simp] theorem nameCount_keyword (k : Keyword) (ts : List Token) :
    nameCount (.keyword k :: ts) = nameCount ts := rfl

mutual

theorem Expression.nameCount_le : (e : Expression) → 2 * nameCount (e.tokens slot) ≤ e.size
  | .term t => t.nameCount_le
  | .sum e op t => by
    have he := e.nameCount_le
    have ht := t.nameCount_le
    simp only [Expression.tokens, nameCount_append, nameCount_punct, Expression.size]
    omega

theorem Term.nameCount_le : (t : Term) → 2 * nameCount (t.tokens slot) ≤ t.size
  | .factor f => f.nameCount_le
  | .product f op t => by
    have hf := f.nameCount_le
    have ht := t.nameCount_le
    simp only [Term.tokens, nameCount_append, nameCount_punct, Term.size]
    omega

theorem Factor.nameCount_le : (f : Factor) → 2 * nameCount (f.tokens slot) ≤ f.size
  | .number _ => Nat.zero_le _
  | .name _ => Nat.le_refl 2
  | .group e => by
    have he := e.nameCount_le
    simpa [Factor.tokens, inParens, Factor.size] using he
  | .call _ arg => by
    have harg := arg.nameCount_le
    simp [Factor.tokens, inParens, Factor.size]
    omega

end

theorem Condition.nameCount_le (c : Condition) : 2 * nameCount (c.tokens slot) ≤ c.size := by
  have hleft := c.left.nameCount_le slot
  have hright := c.right.nameCount_le slot
  simp [Condition.tokens, inParens, Condition.size]
  omega

mutual

theorem Statement.nameCount_le : (s : Statement) → 2 * nameCount (s.tokens slot) ≤ s.size
  | .assign _ e => by
    have he := e.nameCount_le slot
    simp [Statement.tokens, Statement.size]
    omega
  | .ifElse c yes no => by
    have hc := c.nameCount_le slot
    have hyes := yes.nameCount_le
    have hno := no.nameCount_le
    simp [Statement.tokens, Statement.size]
    omega
  | .whileDo c body => by
    have hc := c.nameCount_le slot
    have hbody := body.nameCount_le
    simp [Statement.tokens, Statement.size]
    omega
  | .ret e => by
    have he := e.nameCount_le slot
    simp [Statement.tokens, Statement.size]
    omega
  | .block b => by
    have hb := b.nameCount_le
    simpa [Statement.tokens, inBraces, Statement.size] using hb
  | .skip => Nat.le_refl 0

theorem Block.nameCount_le : (b : Block) → 2 * nameCount (b.tokens slot) ≤ b.size
  | .nil => Nat.le_refl 0
  | .cons s b => by
    have hs := s.nameCount_le
    have hb := b.nameCount_le
    simp only [Block.tokens, nameCount_append, Block.size]
    omega

end

/-- A frame takes at most half as many words as the code. -/
theorem Program.frame_le (p : Program) :
    2 * (distinctNames (p.tokens slot)).length ≤ width (p.code slot) := by
  have hbody := p.body.nameCount_le slot
  have hdistinct : (distinctNames (p.tokens slot)).length ≤ nameCount (p.tokens slot) :=
    length_eraseDups_le _
  have hcount : nameCount (p.tokens slot) = nameCount (p.body.tokens slot) + 2 := by
    simp [Program.tokens, inParens, inBraces]
  rw [Program.width_code]
  omega

end Grammar

theorem Bytecode.mem_addressed_of_body {b : Bytecode} {pre post : List Instruction} {i : Instruction}
    (h : b.instructions = .call bodyAddr :: .stop :: (pre ++ i :: post)) :
    (bodyAddr + width pre, i) ∈ b.addressed := by
  have hmem := mem_addressedFrom 0 (.call bodyAddr :: .stop :: pre) post i
  have haddr : 0 + width (.call bodyAddr :: .stop :: pre) = bodyAddr + width pre := by
    change 0 + (2 + (1 + width pre)) = 3 + width pre
    omega
  rw [haddr] at hmem
  rw [addressed, h]
  exact hmem

/-- A call and a stop, and behind them a body that is checked and ends in an instruction that does
nothing; frames have a slot for the parameter, and nothing is too large for a word. -/
structure Bytecode.WellFormed (b : Bytecode) (body : List Instruction) : Prop where
  instructions : b.instructions = .call bodyAddr :: .stop :: body
  checked : Checked body b.frameSize 0 body
  last : ∃ init, body = init ++ [.nop]
  param : b.paramSlot < b.frameSize
  frame : 2 * b.frameSize ≤ b.wordCount
  small : b.wordCount ≤ Word.sizeLimit

namespace Bytecode.WellFormed

variable {b : Bytecode} {body pre post : List Instruction} {i : Instruction}

theorem wordCount_eq (h : b.WellFormed body) : b.wordCount = bodyAddr + width body := by
  rw [wordCount, h.instructions]
  exact width_append [.call bodyAddr, .stop] body

theorem legal (h : b.WellFormed body) (hbody : body = pre ++ i :: post) :
    Legal body b.frameSize (depth 0 pre) i := by
  have hchecked := h.checked
  rw [congrArg (Checked body b.frameSize 0) hbody] at hchecked
  exact hchecked.legal

theorem lands_lt (h : b.WellFormed body) {addr : Nat} (hlands : Lands body addr) :
    addr < b.wordCount := by
  obtain ⟨pre, post, hbody, haddr, -, hpost⟩ := hlands
  obtain ⟨i, post, rfl⟩ := List.exists_cons_of_ne_nil hpost
  have hpos := i.width_pos
  rw [h.wordCount_eq, hbody, width_append, width_cons]
  omega

/-- Behind any instruction but the last there is another one. -/
theorem next_lt (h : b.WellFormed body) (hbody : body = pre ++ i :: post) (hi : i ≠ .nop) :
    bodyAddr + width pre + i.width < Word.sizeLimit := by
  obtain ⟨init, hinit⟩ := h.last
  have hsmall := h.small
  rw [h.wordCount_eq, hbody, width_append, width_cons] at hsmall
  cases post with
  | nil =>
    rw [hinit] at hbody
    have hlast := (List.append_inj' hbody rfl).2
    exact absurd (List.cons.inj hlast).1.symm hi
  | cons j post =>
    have hpos := j.width_pos
    rw [width_cons] at hsmall
    omega

theorem encodable (h : b.WellFormed body) (hbody : body = pre ++ i :: post) : i.Encodable := by
  have hlegal := h.legal hbody
  have hframe := h.frame
  have hsmall := h.small
  refine ⟨fun n hn => ?_, fun n hn => ?_⟩
  · have hlt := hlegal.slot n hn
    omega
  · have hland : Lands body n → n < Word.sizeLimit := fun hlands =>
      Nat.lt_of_lt_of_le (h.lands_lt hlands) hsmall
    cases i with
    | branch test target =>
      obtain rfl : target = n := Option.some.inj hn
      exact hland hlegal.target.2
    | goto target =>
      obtain rfl : target = n := Option.some.inj hn
      exact hland hlegal.target.2
    | call target =>
      rw [← Option.some.inj hn, show target = bodyAddr from hlegal.target]
      decide
    | _ => cases hn

theorem mem_addressed (h : b.WellFormed body) (hbody : body = pre ++ i :: post) :
    (bodyAddr + width pre, i) ∈ b.addressed := by
  rw [hbody] at h
  exact Bytecode.mem_addressed_of_body h.instructions

/-- A run starts with a call. -/
theorem fetch_start (h : b.WellFormed body) {m : Machine} (hcode : m.code = b.words.toArray)
    (hip : m.ip = 0) : m.fetch = .ok (.call bodyAddr) := by
  have hsmall : (Instruction.call bodyAddr).Encodable := by
    refine ⟨fun n hn => ?_, fun n hn => ?_⟩
    · cases hn
    · cases hn
      decide
  exact Machine.fetch_eq_ok hcode (show _ = [] ++ _ from h.instructions) hsmall hip

/-- The call comes back to a stop. -/
theorem fetch_stop (h : b.WellFormed body) {m : Machine} (hcode : m.code = b.words.toArray)
    (hip : m.ip = 2) : m.fetch = .ok .stop :=
  Machine.fetch_eq_ok hcode (show _ = [.call bodyAddr] ++ _ from h.instructions) ⟨nofun, nofun⟩ hip

/-- In the body the machine fetches what stands at `ip`. -/
theorem fetch (h : b.WellFormed body) {m : Machine} (hcode : m.code = b.words.toArray)
    (hbody : body = pre ++ i :: post) (hip : m.ip = bodyAddr + width pre) : m.fetch = .ok i := by
  have hb : b.instructions = (.call bodyAddr :: .stop :: pre) ++ i :: post := by
    rw [h.instructions, hbody]
    rfl
  refine Machine.fetch_eq_ok hcode hb (h.encodable hbody) ?_
  rw [hip]
  change 3 + width pre = 2 + (1 + width pre)
  omega

end Bytecode.WellFormed

open Grammar

theorem Grammar.Program.checked (p : Program) {slot : String → Nat} {frameSize : Nat}
    (h : ∀ t ∈ p.tokens slot, t.InFrame slot frameSize) :
    Checked (p.body.code slot bodyAddr ++ [.nop]) frameSize 0 (p.body.code slot bodyAddr ++ [.nop]) := by
  rw [checked_append]
  refine ⟨p.body.checked ⟨[], [.nop], rfl, rfl, rfl, by simp⟩ fun t ht => h t ?_,
    ⟨Nat.zero_le _, nofun, trivial⟩, trivial⟩
  simp [Program.tokens, inBraces, ht]

namespace Scanner.Lexes

variable {source : String} {ts : List Token} {symbols : SymbolTable}

theorem size_symbols (h : (Scanner.ofSource source).Lexes ts symbols) :
    symbols.size = (distinctNames ts).length := by
  rw [← h.slotIn.1, Array.length_toList]
  rfl

/-- Frames have a slot for every name that is read. -/
theorem inFrame (h : (Scanner.ofSource source).Lexes ts symbols) :
    ∀ t ∈ ts, t.InFrame (Solo.slotIn ts) symbols.size := by
  intro t ht x hx
  rw [h.size_symbols]
  exact slotIn_lt ht hx

end Scanner.Lexes

section

variable {source : String} {capacity : Nat} {b : Bytecode} {ts : List Token} {symbols : SymbolTable}
  {p : Program}

theorem checked_of_compile (h : compile source capacity = .ok b)
    (hlexes : (Scanner.ofSource source).Lexes ts symbols) (hp : p.tokens (slotIn ts) = ts) :
    Checked (p.body.code (slotIn ts) bodyAddr ++ [.nop]) b.frameSize 0
      (p.body.code (slotIn ts) bodyAddr ++ [.nop]) := by
  obtain rfl := eq_of_compile h hlexes hp
  exact p.checked fun t ht => hlexes.inFrame t (hp ▸ ht)

theorem param_lt_of_compile (h : compile source capacity = .ok b)
    (hlexes : (Scanner.ofSource source).Lexes ts symbols) (hp : p.tokens (slotIn ts) = ts) :
    b.paramSlot < b.frameSize := by
  obtain rfl := eq_of_compile h hlexes hp
  have hparam : Token.ident p.param (slotIn ts p.param) ∈ ts := by
    rw [← congrArg (_ ∈ ·) hp]
    simp [Program.tokens, inParens]
  exact hlexes.inFrame _ hparam p.param rfl

theorem frame_le_of_compile (h : compile source capacity = .ok b)
    (hlexes : (Scanner.ofSource source).Lexes ts symbols) (hp : p.tokens (slotIn ts) = ts) :
    2 * b.frameSize ≤ b.wordCount := by
  obtain rfl := eq_of_compile h hlexes hp
  have hle := p.frame_le (slotIn ts)
  rw [hp, ← hlexes.size_symbols] at hle
  exact hle

/-- What is compiled into few enough words is well formed. -/
theorem wellFormed_of_compile (h : compile source capacity = .ok b)
    (hcapacity : capacity ≤ Word.sizeLimit) (hlexes : (Scanner.ofSource source).Lexes ts symbols)
    (hp : p.tokens (slotIn ts) = ts) :
    b.WellFormed (p.body.code (slotIn ts) bodyAddr ++ [.nop]) where
  instructions := by
    rw [eq_of_compile h hlexes hp]
    rfl
  checked := checked_of_compile h hlexes hp
  last := ⟨_, rfl⟩
  param := param_lt_of_compile h hlexes hp
  frame := frame_le_of_compile h hlexes hp
  small := Nat.le_trans (wordCount_le h) hcapacity

end

theorem exists_wellFormed {source : String} {capacity : Nat} {b : Bytecode}
    (h : compile source capacity = .ok b) (hcapacity : capacity ≤ Word.sizeLimit) :
    ∃ body, b.WellFormed body := by
  obtain ⟨ts, symbols, hlexes, hderives⟩ := derives_of_compile h
  obtain ⟨p, hp⟩ := (sentence_iff_derives hlexes).2 hderives
  exact ⟨_, wellFormed_of_compile h hcapacity hlexes hp⟩

end Solo
