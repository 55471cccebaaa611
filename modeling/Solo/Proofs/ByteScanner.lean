import Solo.Proofs.Spelling

/-! Reading tokens off the bytes of a text. This scanner keeps two byte indices, one of the byte to be
read next and one of the first byte of the last token, and decides by single bytes what it reads. Only
slices of the text are made of characters: what a token is written with, what a message names, and all
that stands before a token, from which its place is told. A slice that would cut a character in two is
not there, and then neither is the reading. Characters of the kinds that tokens are made of have one
byte, which no other character starts with, so that they can be told by their bytes. -/

namespace Solo

structure ByteScanner where
  text : String
  /-- The index of the byte to be read next. -/
  cursor : Nat := 0
  /-- The index of the first byte of the last token. -/
  start : Nat := 0
  /-- The names read so far. -/
  symbols : SymbolTable := .empty

namespace ByteScanner

open Scanner (isBlank isWordStart isWordPart)

def ofSource (source : String) : ByteScanner := { text := source }

def bytes (l : ByteScanner) : List UInt8 := l.text.toByteArray.data.toList

/-- The byte at the cursor, as the character that has its number. -/
def peek (l : ByteScanner) : Option Char := l.bytes[l.cursor]?.map Char.ofUInt8

/-- The byte at the cursor, and the scanner behind it. At the end nothing moves. -/
def read (l : ByteScanner) : Option Char × ByteScanner :=
  (l.peek, if l.peek.isSome then { l with cursor := l.cursor + 1 } else l)

/-- Gives back the byte that was read last. -/
def unread (l : ByteScanner) : ByteScanner := { l with cursor := l.cursor - 1 }

theorem lt_of_peek {l : ByteScanner} {c : Char} (h : l.peek = some c) : l.cursor < l.bytes.length := by
  obtain ⟨b, hb, -⟩ := Option.map_eq_some_iff.1 h
  exact (List.getElem?_eq_some_iff.1 hb).1

/-- Moves past blanks. -/
def trim (l : ByteScanner) : ByteScanner :=
  match _h : l.peek with
  | some c => if isBlank c then trim { l with cursor := l.cursor + 1 } else l
  | none => l
termination_by l.bytes.length - l.cursor
decreasing_by
  have := lt_of_peek _h
  simp only [bytes] at *
  omega

/-- Reads on as long as `p` holds. The byte that ends this is given back. -/
def readWhile (p : Char → Bool) (l : ByteScanner) : ByteScanner :=
  match _h : l.peek with
  | some c => if p c then readWhile p l.read.2 else l.read.2.unread
  | none => l
termination_by l.bytes.length - l.cursor
decreasing_by
  have := lt_of_peek _h
  simp only [bytes, read, _h, Option.isSome_some, if_true] at *
  omega

/-- The characters from byte `i` up to byte `j`, if both stand between characters. -/
def slice? (l : ByteScanner) (i j : Nat) : Option (List Char) :=
  (String.fromUTF8? (l.text.toByteArray.extract i j)).map String.toList

/-- What has been read of the last token. -/
def lexeme? (l : ByteScanner) : Option (List Char) := l.slice? l.start l.cursor

/-- The place of the last token. -/
def position? (l : ByteScanner) : Option Position := (l.slice? 0 l.start).map Position.behind

/-- A number, of whose digits the first has been read. -/
def number (l : ByteScanner) : Option (Except ScanError Token × ByteScanner) :=
  let l := l.readWhile Char.isDigit
  l.lexeme?.map fun digits =>
    match Numeral.word digits with
    | .ok n => (.ok (.number n), l)
    | .error _ => (.error (.outOfRange (String.ofList digits)), l)

/-- A keyword or a name, of which the first byte has been read. -/
def word (l : ByteScanner) : Option (Except ScanError Token × ByteScanner) :=
  let l := l.readWhile isWordPart
  l.lexeme?.map fun cs =>
    match Keyword.ofWord? (String.ofList cs) with
    | some k => (.ok (.keyword k), l)
    | none =>
      let (slot, symbols) := l.symbols.intern (String.ofList cs)
      (.ok (.ident (String.ofList cs) slot), { l with symbols })

/-- What an equals sign begins, which has been read. -/
def equals (l : ByteScanner) : Except ScanError Token × ByteScanner :=
  match l.read with
  | (some '=', l) => (.ok (.punct .eq), l)
  | (some _, l) => (.ok (.punct .assign), l.unread)
  | (none, l) => (.ok (.punct .assign), l)

/-- What an exclamation mark begins, which has been read. -/
def bang (l : ByteScanner) : Except ScanError Token × ByteScanner :=
  match l.read with
  | (some '=', l) => (.ok (.punct .ne), l)
  | (_, l) => (.error .loneBang, l)

/-- The message about a byte that begins no token names the character that stands there. -/
def unexpected (l : ByteScanner) : Option (Except ScanError Token × ByteScanner) :=
  (l.slice? l.start l.bytes.length).map fun cs => (.error (.unexpected (cs.headD '?')), l)

/-- A token starts at the cursor. -/
def mark (l : ByteScanner) : ByteScanner := { l with start := l.cursor }

/-- The token that starts at the cursor, where no blank stands. -/
def token (l : ByteScanner) : Option (Except ScanError Token × ByteScanner) :=
  match l.mark.read with
  | (none, l) => some (.ok .eof, l)
  | (some c, l) =>
    if c = '=' then some l.equals
    else if c = '!' then some l.bang
    else if c.isDigit then l.number
    else if isWordStart c then l.word
    else match Punct.ofChar? c with
      | some p => some (.ok (.punct p), l)
      | none => l.unexpected

/-- Reads one token and tells its place. -/
def next (l : ByteScanner) : Option (Reading × ByteScanner) :=
  l.trim.token.bind fun (token, l) => l.position?.map fun pos => ({ pos, token }, l)

/-- The scanner after `n` readings. -/
def after : Nat → ByteScanner → Option ByteScanner
  | 0, l => some l
  | n + 1, l => l.next.bind fun (_, l) => after n l

/-- The scanner `n` bytes further on. -/
def skip (l : ByteScanner) (n : Nat) : ByteScanner := { l with cursor := l.cursor + n }

/-- How many bytes from the cursor on are, one after the other, such that `p` holds. -/
def run (l : ByteScanner) (p : Char → Bool) : Nat :=
  ((l.bytes.drop l.cursor).takeWhile fun b => p (.ofUInt8 b)).length

variable {l : ByteScanner} {p : Char → Bool}

theorem read_of_peek {c : Char} (h : l.peek = some c) : l.read = (some c, l.skip 1) := by
  simp only [read, h, Option.isSome_some, if_true, skip]

theorem read_of_end (h : l.peek = none) : l.read = (none, l) := by
  simp only [read, h, Option.isSome_none, Bool.false_eq_true, if_false]

theorem unread_skip : (l.skip 1).unread = l := rfl

theorem skip_skip (m n : Nat) : (l.skip m).skip n = l.skip (m + n) := by
  simp only [skip, Nat.add_assoc]

theorem run_of_peek {c : Char} (h : l.peek = some c) :
    l.run p = if p c then (l.skip 1).run p + 1 else 0 := by
  obtain ⟨b, hb, rfl⟩ := Option.map_eq_some_iff.1 h
  obtain ⟨hlt, hget⟩ := List.getElem?_eq_some_iff.1 hb
  rw [run, List.drop_eq_getElem_cons hlt, hget, List.takeWhile_cons]
  split
  · rfl
  · rfl

theorem run_of_end (h : l.peek = none) : l.run p = 0 := by
  have hle := List.getElem?_eq_none_iff.1 (Option.map_eq_none_iff.1 h)
  rw [run, List.drop_eq_nil_of_le hle]
  rfl

/-- A loop that gives back the byte that ends it stops at that byte. -/
theorem readWhile_eq (p : Char → Bool) (l : ByteScanner) : l.readWhile p = l.skip (l.run p) := by
  fun_induction readWhile p l with
  | case1 l c h hp ih =>
    rw [ih, read_of_peek h, skip_skip, run_of_peek h, if_pos hp, Nat.add_comm]
  | case2 l c h hp =>
    rw [read_of_peek h, unread_skip, run_of_peek h, if_neg hp]
    rfl
  | case3 l h =>
    rw [run_of_end h]
    rfl

theorem trim_eq (l : ByteScanner) : l.trim = l.skip (l.run isBlank) := by
  fun_induction trim l with
  | case1 l c h hp ih =>
    rw [ih, run_of_peek h, if_pos hp]
    exact (skip_skip 1 _).trans (congrArg l.skip (Nat.add_comm _ _))
  | case2 l c h hp =>
    rw [run_of_peek h, if_neg hp]
    rfl
  | case3 l h =>
    rw [run_of_end h]
    rfl

end ByteScanner

/-- The bytes of characters. -/
def utf8 (cs : List Char) : List UInt8 := cs.flatMap String.utf8EncodeChar

section Utf8

variable {c : Char}

theorem utf8_append (cs ds : List Char) : utf8 (cs ++ ds) = utf8 cs ++ utf8 ds := List.flatMap_append

theorem toNat_ofUInt8 (b : UInt8) : (Char.ofUInt8 b).toNat = b.toNat := rfl

theorem utf8_ascii (hc : c.toNat < 128) (cs : List Char) :
    utf8 (c :: cs) = UInt8.ofNat c.toNat :: utf8 cs := by
  have hle : c.val.toNat ≤ 127 := Nat.le_of_lt_succ hc
  rw [utf8, List.flatMap_cons, String.utf8EncodeChar]
  simp only [hle, if_true]
  rfl

theorem ofUInt8_ascii (hc : c.toNat < 128) : Char.ofUInt8 (UInt8.ofNat c.toNat) = c := by
  refine Char.toNat_inj.1 ?_
  rw [toNat_ofUInt8, UInt8.toNat_ofNat']
  omega

/-- The first byte of any other character is no ASCII character either. -/
theorem exists_utf8_cons (hc : 128 ≤ c.toNat) (cs : List Char) :
    ∃ b bs, utf8 (c :: cs) = b :: bs ∧ 128 ≤ b.toNat := by
  have hgt : ¬ c.val.toNat ≤ 127 := Nat.not_le.2 hc
  rw [utf8, List.flatMap_cons, String.utf8EncodeChar]
  simp only [hgt, if_false]
  split
  · refine ⟨_, _, rfl, ?_⟩
    rw [UInt8.toNat_ofNat']
    omega
  · split
    · refine ⟨_, _, rfl, ?_⟩
      rw [UInt8.toNat_ofNat']
      omega
    · refine ⟨_, _, rfl, ?_⟩
      rw [UInt8.toNat_ofNat']
      omega

theorem utf8_eq_nil_iff {cs : List Char} : utf8 cs = [] ↔ cs = [] := by
  cases cs with
  | nil => exact ⟨fun _ => rfl, fun _ => rfl⟩
  | cons c cs =>
    refine ⟨fun h => ?_, fun h => by cases h⟩
    rcases Nat.lt_or_ge c.toNat 128 with hc | hc
    · rw [utf8_ascii hc] at h
      cases h
    · obtain ⟨b, bs, hb, -⟩ := exists_utf8_cons hc cs
      rw [hb] at h
      cases h

theorem length_utf8_ascii {cs : List Char} (h : ∀ c ∈ cs, c.toNat < 128) :
    (utf8 cs).length = cs.length := by
  induction cs with
  | nil => rfl
  | cons c cs ih =>
    obtain ⟨hc, hcs⟩ := List.forall_mem_cons.1 h
    rw [utf8_ascii hc, List.length_cons, ih hcs, List.length_cons]

/-- The predicate holds of ASCII characters only. -/
def AsciiOnly (p : Char → Bool) : Prop := ∀ c, p c = true → c.toNat < 128

/-- Such characters can be told by their bytes. -/
theorem length_takeWhile_utf8 {p : Char → Bool} (hp : AsciiOnly p) (cs : List Char) :
    ((utf8 cs).takeWhile fun b => p (.ofUInt8 b)).length = (cs.takeWhile p).length := by
  induction cs with
  | nil => rfl
  | cons c cs ih =>
    rcases Nat.lt_or_ge c.toNat 128 with hc | hc
    · rw [utf8_ascii hc, List.takeWhile_cons, List.takeWhile_cons, ofUInt8_ascii hc]
      split
      · rw [List.length_cons, List.length_cons, ih]
      · rfl
    · obtain ⟨b, bs, hb, hlarge⟩ := exists_utf8_cons hc cs
      have hfirst : ¬ p (.ofUInt8 b) = true := fun h => Nat.not_lt.2 hlarge (hp _ h)
      have hchar : ¬ p c = true := fun h => Nat.not_lt.2 hc (hp c h)
      rw [hb, List.takeWhile_cons, List.takeWhile_cons, if_neg hfirst, if_neg hchar]
      rfl

end Utf8

namespace Scanner

theorem isDigit_ascii : AsciiOnly Char.isDigit := by
  intro c hc
  have hnine : '9'.toNat = 57 := rfl
  have hle := (Char.isDigit_iff_toNat.1 hc).2
  omega

theorem isAlpha_ascii : AsciiOnly Char.isAlpha := by
  intro c hc
  have hle : c.val ≤ 'z'.val := by
    rcases (Bool.or_eq_true _ _).mp hc with hupper | hlower
    · exact UInt32.le_trans (of_decide_eq_true hupper).2 (by decide)
    · exact of_decide_eq_true ((Bool.and_eq_true _ _).mp hlower).2
  exact Nat.lt_of_le_of_lt (UInt32.le_iff_toNat_le.1 hle) (by decide)

theorem isWordStart_ascii : AsciiOnly isWordStart := by
  intro c hc
  rcases (Bool.or_eq_true _ _).mp hc with halpha | hunderscore
  · exact isAlpha_ascii c halpha
  · rw [of_decide_eq_true hunderscore]
    decide

theorem isWordPart_ascii : AsciiOnly isWordPart := by
  intro c hc
  rcases (Bool.or_eq_true _ _).mp hc with halphanum | hunderscore
  · rcases (Bool.or_eq_true _ _).mp halphanum with halpha | hdigit
    · exact isAlpha_ascii c halpha
    · exact isDigit_ascii c hdigit
  · rw [of_decide_eq_true hunderscore]
    decide

theorem isBlank_ascii : AsciiOnly isBlank := by
  intro c hc
  simp only [isBlank, Bool.or_eq_true, decide_eq_true_eq] at hc
  rcases hc with (((rfl | rfl) | rfl) | rfl) | rfl <;> decide

theorem ofChar?_ascii : AsciiOnly fun c => (Punct.ofChar? c).isSome := by
  intro c hc
  obtain ⟨p, hp⟩ := Option.isSome_iff_exists.1 hc
  have htext : ∀ d ∈ p.text.toList, d.toNat < 128 := by cases p <;> simp [Punct.text]
  rw [Punct.text_of_ofChar? hp] at htext
  exact htext c (by simp)

end Scanner

end Solo
