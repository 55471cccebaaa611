import Solo.Bytecode.Listing
import Solo.Proofs.LongestMatch
import Solo.Proofs.Operands
import Solo.Proofs.Printing

/-! A listing shows all there is of a program. It has a line for each slot and then a line for each
instruction, and from these lines the names, the parameter and the instructions are found again: names
are words, so they end where a blank or a line feed stands, and an address is known from what stands
before it. -/

namespace Solo

open Bytecode (addressedFrom)
open Scanner (isWordPart takeWhile_front)

/-- The text is made of `lines`, each with a line feed behind it. -/
def Lines (text : String) (lines : List String) : Prop :=
  text.toList.splitOn '\n' = lines.map String.toList ++ [[]]

theorem Lines.unique {text : String} {lines lines' : List String} (h : Lines text lines)
    (h' : Lines text lines') : lines = lines' :=
  (List.map_inj_right fun _ _ => String.toList_inj.1).1 (List.append_cancel_right (h.symm.trans h'))

theorem lines_join {lines : List String} (h : ∀ line ∈ lines, '\n' ∉ line.toList) :
    Lines (String.join (lines.map (· ++ "\n"))) lines := by
  have hpieces : ∀ piece ∈ lines.map String.toList, '\n' ∉ piece := by
    intro piece hpiece
    obtain ⟨line, hline, rfl⟩ := List.mem_map.1 hpiece
    exact h line hline
  rw [Lines, ← splitOn_pieces hpieces, String.toList_join, List.flatMap_map, List.flatMap_map]
  exact congrArg (fun f => List.splitOn '\n' (lines.flatMap f)) (funext fun _ => String.toList_append)

/-- Where the elements of a kind in front end is known from the whole list. -/
theorem front_inj {α : Type} {p : α → Bool} {front front' rest rest' : List α}
    (hfront : ∀ c ∈ front, p c = true) (hfront' : ∀ c ∈ front', p c = true)
    (hrest : ∀ c ∈ rest.head?, p c ≠ true) (hrest' : ∀ c ∈ rest'.head?, p c ≠ true)
    (h : front ++ rest = front' ++ rest') : front = front' ∧ rest = rest' := by
  have hsame := congrArg (List.takeWhile p) h
  rw [takeWhile_front hfront hrest, takeWhile_front hfront' hrest'] at hsame
  subst hsame
  exact ⟨rfl, List.append_cancel_left h⟩

/-- Where characters of a kind end before a blank is known from the whole text. -/
theorem front_inj_blank {p : Char → Bool} {front front' rest rest' : List Char}
    (hblank : p ' ' ≠ true) (hfront : ∀ c ∈ front, p c = true) (hfront' : ∀ c ∈ front', p c = true)
    (hrest : ∀ c ∈ rest.head?, c = ' ') (hrest' : ∀ c ∈ rest'.head?, c = ' ')
    (h : front ++ rest = front' ++ rest') : front = front' ∧ rest = rest' :=
  front_inj hfront hfront' (fun c hc => hrest c hc ▸ hblank) (fun c hc => hrest' c hc ▸ hblank) h

theorem isDigit_of_mem_toString {n : Nat} {c : Char} (h : c ∈ (toString n).toList) :
    c.isDigit = true := by
  rw [Nat.toString_eq_ofList_toDigits, String.toList_ofList] at h
  exact Nat.isDigit_of_mem_toDigits (by decide) (by decide) h

theorem Name.isWordPart_of_mem (x : Name) : ∀ c ∈ x.text.toList, isWordPart c = true := by
  obtain ⟨c, cs, hchars, hstart, hparts⟩ := Item.exists_word (i := .name x) trivial
  intro d hd
  rw [show x.text.toList = c :: cs from hchars] at hd
  rcases List.mem_cons.1 hd with rfl | hd
  · exact Scanner.isWordPart_of_isWordStart hstart
  · exact hparts d hd

namespace Scanner

/-- Names that are read are words. -/
theorem Yields.names {s : Scanner} {ls : List Lexeme} {ending : TokenStream.Ending}
    {symbols : SymbolTable} (h : s.Yields ls ending symbols) :
    ∀ x k, .ident x k ∈ ls.map (·.token) → ∀ c ∈ x.toList, isWordPart c = true := by
  induction h with
  | eof _ | stuck _ => exact fun _ _ hmem => absurd hmem List.not_mem_nil
  | token hnext ht _ ih =>
    intro x k hmem
    rcases List.mem_cons.1 hmem with rfl | hmem
    · obtain ⟨i, hi, -⟩ := item_of_token (next_eq hnext) ht
      cases i with
      | name x =>
        obtain ⟨rfl, -⟩ := Token.ident.inj hi
        exact x.isWordPart_of_mem
      | _ => cases hi
    · exact ih x k hmem

end Scanner

namespace Instruction

/-- The mnemonics, each at its opcode. -/
def mnemonics : List String :=
  ["NOP", "PUSH", "LOAD", "STORE", "ADD", "SUB", "MUL", "DIV", "IF_CMPEQ", "IF_CMPNE", "IF_CMPLE",
    "IF_CMPGE", "GOTO", "CALL", "RETURN", "STOP"]

theorem idxOf_mnemonic (i : Instruction) : .ofSize (mnemonics.idxOf i.mnemonic) = i.opcode := by
  cases i with
  | arith op => cases op <;> rfl
  | branch test _ => cases test <;> rfl
  | _ => rfl

theorem isWordPart_of_mem_mnemonic (i : Instruction) :
    ∀ c ∈ i.mnemonic.toList, isWordPart c = true := by
  have hmem : i.mnemonic ∈ mnemonics := by
    cases i with
    | arith op => cases op <;> simp [mnemonic, mnemonics]
    | branch test _ => cases test <;> simp [mnemonic, mnemonics]
    | _ => simp [mnemonic, mnemonics]
  have hall : mnemonics.all (·.toList.all isWordPart) = true := by decide
  exact List.all_eq_true.1 (List.all_eq_true.1 hall _ hmem)

/-- What stands behind the mnemonic. -/
def operandText (i : Instruction) : List Char :=
  i.operand.elim [] fun w => ' ' :: (Word.text w).toList

theorem toList_text (i : Instruction) : i.text.toList = i.mnemonic.toList ++ i.operandText := by
  unfold text operandText
  cases i.operand with
  | none => exact (List.append_nil _).symm
  | some w =>
    rw [String.toList_append, String.toList_append, List.append_assoc]
    rfl

/-- No two instructions are encoded in the same way. -/
theorem Encodable.eq_of_encode {i i' : Instruction} (hi : i.Encodable) (hi' : i'.Encodable)
    (h : i.encode = i'.encode) : i = i' := by
  have hdecode : decode i.encode.toArray 0 = .ok i :=
    decode_encode hi (show i.encode.toArray.toList.drop 0 = i.encode ++ [] by simp)
  have hdecode' : decode i.encode.toArray 0 = .ok i' :=
    decode_encode hi' (show i.encode.toArray.toList.drop 0 = i'.encode ++ [] by simp [h])
  exact Except.ok.inj (hdecode.symm.trans hdecode')

end Instruction

namespace Bytecode

variable {b b' : Bytecode} {addr slot : Nat} {name name' : String} {i i' : Instruction}

def role (b : Bytecode) (slot : Nat) : String := if slot = b.paramSlot then "  parameter" else ""

/-- The line of a slot, without the line feed. -/
def slotText (b : Bytecode) (slot : Nat) (name : String) : String :=
  "slot " ++ toString slot ++ ": " ++ name ++ b.role slot

/-- The name of the variable that the instruction uses, if it uses one. -/
def nameText (b : Bytecode) (i : Instruction) : String :=
  (i.slot?.bind b.symbols.name?).elim "" fun name => "  (" ++ name ++ ")"

/-- The line of an instruction, without the line feed. -/
def instructionText (b : Bytecode) (addr : Nat) (i : Instruction) : String :=
  Column.alignRight 4 (toString addr) ++ "  " ++ i.text ++ b.nameText i

def slotTexts (b : Bytecode) : List String := b.symbols.entries.map fun p => b.slotText p.1 p.2

def instructionTexts (b : Bytecode) : List String :=
  b.addressed.map fun p => b.instructionText p.1 p.2

theorem instructionLine_eq (b : Bytecode) (addr : Nat) (i : Instruction) :
    b.instructionLine addr i = b.instructionText addr i ++ "\n" := by
  unfold instructionLine instructionText nameText
  cases i.slot?.bind b.symbols.name? <;> rfl

theorem listing_eq (b : Bytecode) :
    b.listing = String.join ((b.slotTexts ++ b.instructionTexts).map (· ++ "\n")) := by
  have hslots : (b.symbols.entries.map fun p => b.slotLine p.1 p.2) = b.slotTexts.map (· ++ "\n") := by
    rw [slotTexts, List.map_map]
    rfl
  have hinstructions : (b.addressed.map fun p => b.instructionLine p.1 p.2) =
      b.instructionTexts.map (· ++ "\n") := by
    rw [instructionTexts, List.map_map]
    exact List.map_congr_left fun p _ => b.instructionLine_eq p.1 p.2
  rw [List.map_append, String.join_append, ← hslots, ← hinstructions]
  rfl

theorem role_eq_iff : b.role slot = "  parameter" ↔ slot = b.paramSlot := by
  unfold role
  split <;> simp_all

theorem head_role : ∀ c ∈ (b.role slot).toList.head?, c = ' ' := by
  unfold role
  split <;> simp [eq_comm]

theorem head_nameText : ∀ c ∈ (b.nameText i).toList.head?, c = ' ' := by
  unfold nameText
  cases i.slot?.bind b.symbols.name? with
  | none => simp
  | some name => simp [String.toList_append, eq_comm]

theorem nameText_of_operand (h : i.operand = none) : b.nameText i = "" := by
  cases i with
  | nop | arith _ | ret | stop => rfl
  | _ => cases h

/-- Before an instruction stand only blanks and digits. -/
theorem blank_or_digit {c : Char} (h : c ∈ (Column.alignRight 4 (toString addr) ++ "  ").toList) :
    c = ' ' ∨ c.isDigit = true := by
  simp only [Column.alignRight, Column.blanks, String.toList_append, String.toList_ofList,
    List.mem_append, List.mem_replicate] at h
  rcases h with (⟨-, rfl⟩ | hdigit) | hblank
  · exact .inl rfl
  · exact .inr (isDigit_of_mem_toString hdigit)
  · exact .inl (by simpa using hblank)

theorem head_slotText : (b.slotText slot name).toList.head? = some 's' := by
  simp [slotText, String.toList_append]

theorem head_instructionText : (b.instructionText addr i).toList.head? ≠ some 's' := by
  intro hhead
  have hfront : (Column.alignRight 4 (toString addr) ++ "  ").toList ≠ [] := by
    simp [String.toList_append]
  obtain ⟨c, cs, hcs⟩ := List.exists_cons_of_ne_nil hfront
  rw [instructionText, String.append_assoc, String.toList_append, hcs, List.cons_append,
    List.head?_cons] at hhead
  obtain rfl := Option.some.inj hhead
  rcases blank_or_digit (hcs ▸ List.mem_cons_self) with hblank | hdigit
  · cases hblank
  · cases hdigit

/-- A slot line is read off up to its name, which ends where the role begins. -/
theorem slotText_inj (hname : ∀ c ∈ name.toList, isWordPart c = true)
    (hname' : ∀ c ∈ name'.toList, isWordPart c = true)
    (h : b.slotText slot name = b'.slotText slot name') :
    name = name' ∧ (slot = b.paramSlot ↔ slot = b'.paramSlot) := by
  have hlist := congrArg String.toList h
  simp only [slotText, String.toList_append, List.append_assoc] at hlist
  have hrest := List.append_cancel_left (List.append_cancel_left (List.append_cancel_left hlist))
  obtain ⟨hsame, hroles⟩ := front_inj_blank (by decide) hname hname' head_role head_role hrest
  refine ⟨String.toList_inj.1 hsame, ?_⟩
  rw [← role_eq_iff, ← role_eq_iff, String.toList_inj.1 hroles]

/-- Behind the mnemonic there is nothing or a blank. -/
theorem head_operandText : ∀ c ∈ (i.operandText ++ (b.nameText i).toList).head?, c = ' ' := by
  unfold Instruction.operandText
  cases i.operand with
  | none => exact head_nameText
  | some w => simp [eq_comm]

theorem operand_inj
    (h : i.operandText ++ (b.nameText i).toList = i'.operandText ++ (b'.nameText i').toList) :
    i.operand = i'.operand := by
  have hword (w : Word) : ∀ c ∈ (Word.text w).toList, (c != ' ') = true := by
    intro c hc
    refine bne_iff_ne.2 fun hblank => ?_
    exact absurd (Word.isDigit_of_mem_text (hblank ▸ hc) (by decide)) (by decide)
  unfold Instruction.operandText at h
  cases hi : i.operand with
  | none =>
    cases hi' : i'.operand with
    | none => rfl
    | some w' => simp [hi, hi', nameText_of_operand hi] at h
  | some w =>
    cases hi' : i'.operand with
    | none => simp [hi, hi', nameText_of_operand hi'] at h
    | some w' =>
      rw [hi, hi'] at h
      obtain ⟨-, hrest⟩ := List.cons.inj h
      obtain ⟨hw, -⟩ :=
        front_inj_blank (by decide) (hword w) (hword w') head_nameText head_nameText hrest
      rw [Word.text_inj (String.toList_inj.1 hw)]

/-- At a known address an instruction is read off its line. -/
theorem instructionText_inj (hi : i.Encodable) (hi' : i'.Encodable)
    (h : b.instructionText addr i = b'.instructionText addr i') : i = i' := by
  have hlist := congrArg String.toList h
  simp only [instructionText, String.toList_append, Instruction.toList_text, List.append_assoc] at hlist
  have htexts := List.append_cancel_left (List.append_cancel_left hlist)
  obtain ⟨hmnemonic, hoperands⟩ := front_inj_blank (by decide) i.isWordPart_of_mem_mnemonic
    i'.isWordPart_of_mem_mnemonic head_operandText head_operandText htexts
  apply hi.eq_of_encode hi'
  rw [Instruction.encode, Instruction.encode, ← Instruction.idxOf_mnemonic,
    ← Instruction.idxOf_mnemonic, String.toList_inj.1 hmnemonic, operand_inj hoperands]

/-- Line by line the address is known from what stands before. -/
theorem instructions_inj {is is' : List Instruction} (his : ∀ i ∈ is, i.Encodable)
    (his' : ∀ i ∈ is', i.Encodable)
    (h : (addressedFrom addr is).map (fun p => b.instructionText p.1 p.2) =
      (addressedFrom addr is').map fun p => b'.instructionText p.1 p.2) : is = is' := by
  induction is generalizing addr is' with
  | nil =>
    cases is' with
    | nil => rfl
    | cons i' is' => simp [addressedFrom] at h
  | cons i is ih =>
    cases is' with
    | nil => simp [addressedFrom] at h
    | cons i' is' =>
      rw [addressedFrom, addressedFrom, List.map_cons, List.map_cons] at h
      obtain ⟨hi, hrest⟩ := List.forall_mem_cons.1 his
      obtain ⟨hi', hrest'⟩ := List.forall_mem_cons.1 his'
      obtain ⟨hline, hlines⟩ := List.cons.inj h
      obtain rfl := instructionText_inj hi hi' hline
      rw [ih hrest hrest' hlines]

/-- Names are words, the slots that are used have one, and no operand is cut. -/
structure Listable (b : Bytecode) : Prop where
  names : ∀ x ∈ b.symbols.names.toList, ∀ c ∈ x.toList, isWordPart c = true
  param : b.paramSlot < b.frameSize
  slots : ∀ i ∈ b.instructions, ∀ k, i.slot? = some k → k < b.frameSize
  encodable : ∀ i ∈ b.instructions, i.Encodable

/-- What a listing shows, with `slots` for the lines of the slots and `code` for those of the
instructions. -/
structure ListedAs (b : Bytecode) (slots code : List String) : Prop where
  lines : Lines b.listing (slots ++ code)
  length_slots : slots.length = b.frameSize
  slot : ∀ k < b.frameSize, ∃ name, b.symbols.name? k = some name ∧
    slots[k]? = some ("slot " ++ toString k ++ ": " ++ name ++
      (if k = b.paramSlot then "  parameter" else ""))
  param : b.paramSlot < b.frameSize
  marked : ∀ k line, slots[k]? = some line → ("  parameter".toList <:+ line.toList ↔ k = b.paramSlot)
  length_code : code.length = b.instructions.length
  instruction : ∀ pre i post, b.instructions = pre ++ i :: post → ∃ suffix,
    code[pre.length]? = some (Column.alignRight 4 (toString (width pre)) ++ "  " ++ i.text ++ suffix) ∧
    (∀ k, i.slot? = some k → ∃ name, b.symbols.name? k = some name ∧ suffix = "  (" ++ name ++ ")") ∧
    (i.slot? = none → suffix = "")

theorem exists_name (hslot : slot < b.frameSize) : ∃ name, b.symbols.name? slot = some name :=
  ⟨_, Array.getElem?_eq_getElem hslot⟩

theorem getElem?_slotTexts (b : Bytecode) (k : Nat) :
    b.slotTexts[k]? = (b.symbols.name? k).map (b.slotText k) := by
  rw [slotTexts, SymbolTable.entries, List.getElem?_map, List.getElem?_mapIdx, Array.getElem?_toList,
    Option.map_map]
  rfl

theorem newline_not_mem_slotText (hname : ∀ c ∈ name.toList, isWordPart c = true) :
    '\n' ∉ (b.slotText slot name).toList := by
  have hslot : '\n' ∉ (toString slot).toList :=
    fun hmem => absurd (isDigit_of_mem_toString hmem) (by decide)
  have hword : '\n' ∉ name.toList := fun hmem => absurd (hname _ hmem) (by decide)
  have hrole : '\n' ∉ (b.role slot).toList := by
    unfold role
    split <;> simp
  simp only [slotText, String.toList_append, List.mem_append, not_or]
  exact ⟨⟨⟨⟨by simp, hslot⟩, by simp⟩, hword⟩, hrole⟩

/-- Only the line of the parameter ends with its role, since names have no blanks. -/
theorem role_suffix_iff (hname : ∀ c ∈ name.toList, isWordPart c = true) :
    "  parameter".toList <:+ (b.slotText slot name).toList ↔ slot = b.paramSlot := by
  constructor
  · rintro ⟨before, hbefore⟩
    refine Decidable.byContradiction fun hslot => ?_
    rw [slotText, role, if_neg hslot] at hbefore
    -- read backwards, before the blank in front of a name stands a colon
    have hback : "parameter".toList.reverse ++ ' ' :: ' ' :: before.reverse =
        name.toList.reverse ++ ' ' :: ':' :: ("slot " ++ toString slot).toList.reverse := by
      simpa [String.toList_append] using congrArg List.reverse hbefore
    have hparameter : ∀ c ∈ "parameter".toList.reverse, isWordPart c = true :=
      List.all_eq_true.1 (by decide)
    have hreverse : ∀ c ∈ name.toList.reverse, isWordPart c = true :=
      fun c hc => hname c (List.mem_reverse.1 hc)
    obtain ⟨-, hrest⟩ :=
      front_inj_blank (by decide) hparameter hreverse (by simp [eq_comm]) (by simp [eq_comm]) hback
    exact absurd (List.cons.inj (List.cons.inj hrest).2).1 (by decide)
  · intro hslot
    rw [slotText, role_eq_iff.2 hslot, String.toList_append]
    exact List.suffix_append _ _

namespace Listable

theorem isWordPart_name (h : b.Listable) (hname : b.symbols.name? slot = some name) :
    ∀ c ∈ name.toList, isWordPart c = true :=
  h.names name (Array.mem_toList_iff.2 (Array.mem_of_getElem? hname))

theorem newline_not_mem_instructionText (h : b.Listable) :
    '\n' ∉ (b.instructionText addr i).toList := by
  have hfront : '\n' ∉ (Column.alignRight 4 (toString addr) ++ "  ").toList := by
    intro hmem
    rcases blank_or_digit hmem with hblank | hdigit
    · cases hblank
    · cases hdigit
  have hmnemonic : '\n' ∉ i.mnemonic.toList :=
    fun hmem => absurd (i.isWordPart_of_mem_mnemonic _ hmem) (by decide)
  have hoperand : '\n' ∉ i.operandText := by
    unfold Instruction.operandText
    cases i.operand with
    | none => simp
    | some w =>
      have hword : '\n' ∉ (Word.text w).toList :=
        fun hmem => absurd (Word.isDigit_of_mem_text hmem (by decide)) (by decide)
      simp [hword]
  have hname : '\n' ∉ (b.nameText i).toList := by
    unfold nameText
    cases hx : i.slot?.bind b.symbols.name? with
    | none => simp
    | some x =>
      obtain ⟨k, -, hk⟩ := Option.bind_eq_some_iff.1 hx
      have hword : '\n' ∉ x.toList := fun hmem => absurd (h.isWordPart_name hk _ hmem) (by decide)
      simp [String.toList_append, hword]
  rw [instructionText, String.toList_append, String.toList_append, Instruction.toList_text]
  simp only [List.mem_append, not_or]
  exact ⟨⟨hfront, hmnemonic, hoperand⟩, hname⟩

theorem lines (h : b.Listable) : Lines b.listing (b.slotTexts ++ b.instructionTexts) := by
  rw [listing_eq]
  refine lines_join fun line hline => ?_
  rcases List.mem_append.1 hline with hslot | hinstruction
  · obtain ⟨k, hk⟩ := List.mem_iff_getElem?.1 hslot
    rw [getElem?_slotTexts] at hk
    obtain ⟨name, hname, rfl⟩ := Option.map_eq_some_iff.1 hk
    exact newline_not_mem_slotText (h.isWordPart_name hname)
  · obtain ⟨p, -, rfl⟩ := List.mem_map.1 hinstruction
    exact h.newline_not_mem_instructionText

theorem listedAs (h : b.Listable) : b.ListedAs b.slotTexts b.instructionTexts where
  lines := h.lines
  length_slots := by
    rw [slotTexts, List.length_map, SymbolTable.entries, List.length_mapIdx, Array.length_toList]
    rfl
  slot k hk := by
    obtain ⟨name, hname⟩ := exists_name hk
    exact ⟨name, hname, by rw [getElem?_slotTexts, hname]; rfl⟩
  param := h.param
  marked k line hline := by
    rw [getElem?_slotTexts] at hline
    obtain ⟨name, hname, rfl⟩ := Option.map_eq_some_iff.1 hline
    exact role_suffix_iff (h.isWordPart_name hname)
  length_code := by rw [instructionTexts, List.length_map, addressed, length_addressedFrom]
  instruction pre i post hcode := by
    refine ⟨b.nameText i, ?_, fun k hk => ?_, fun hnone => ?_⟩
    · rw [instructionTexts, List.getElem?_map, addressed, hcode, getElem?_addressedFrom, Nat.zero_add]
      rfl
    · obtain ⟨name, hname⟩ := exists_name (h.slots i (by simp [hcode]) k hk)
      exact ⟨name, hname, by rw [nameText, hk, Option.bind_some, hname]; rfl⟩
    · rw [nameText, hnone]
      rfl

theorem eq_of_slotTexts (h : b.Listable) (h' : b'.Listable) (hslots : b.slotTexts = b'.slotTexts) :
    b.paramSlot = b'.paramSlot ∧ b.symbols.names = b'.symbols.names := by
  have hsame (k : Nat) : b.symbols.name? k = b'.symbols.name? k ∧
      (k < b.frameSize → (k = b.paramSlot ↔ k = b'.paramSlot)) := by
    have hline := congrArg (·[k]?) hslots
    simp only [getElem?_slotTexts] at hline
    cases hname : b.symbols.name? k with
    | none =>
      rw [hname, Option.map_none, eq_comm, Option.map_eq_none_iff] at hline
      refine ⟨hline.symm, fun hlt => ?_⟩
      obtain ⟨name, hsome⟩ := exists_name hlt
      cases hname.symm.trans hsome
    | some name =>
      rw [hname, Option.map_some, eq_comm] at hline
      obtain ⟨name', hname', hline⟩ := Option.map_eq_some_iff.1 hline
      obtain ⟨rfl, hrole⟩ :=
        slotText_inj (h.isWordPart_name hname) (h'.isWordPart_name hname') hline.symm
      exact ⟨hname'.symm, fun _ => hrole⟩
  exact ⟨((hsame _).2 h.param).1 rfl, Array.ext_getElem? fun k => (hsame k).1⟩

theorem eq_of_listing (h : b.Listable) (h' : b'.Listable) (hlisting : b.listing = b'.listing) :
    b.instructions = b'.instructions ∧ b.paramSlot = b'.paramSlot ∧
      b.symbols.names = b'.symbols.names := by
  -- the lines of the slots are those that begin with a letter
  have hslot (b : Bytecode) : ∀ line ∈ b.slotTexts, (line.toList.head? == some 's') = true := by
    intro line hline
    obtain ⟨p, -, rfl⟩ := List.mem_map.1 hline
    exact beq_iff_eq.2 head_slotText
  have hinstruction (b : Bytecode) :
      ∀ line ∈ b.instructionTexts.head?, (line.toList.head? == some 's') ≠ true := by
    intro line hline
    obtain ⟨p, -, rfl⟩ := List.mem_map.1 (List.mem_of_mem_head? hline)
    exact mt beq_iff_eq.1 head_instructionText
  obtain ⟨hslots, hcode⟩ := front_inj (hslot b) (hslot b') (hinstruction b) (hinstruction b')
    ((hlisting ▸ h.lines).unique h'.lines)
  exact ⟨instructions_inj h.encodable h'.encodable hcode, h.eq_of_slotTexts h' hslots⟩

end Listable

theorem WellFormed.slot_lt {body : List Instruction} (h : b.WellFormed body) :
    ∀ i ∈ b.instructions, ∀ k, i.slot? = some k → k < b.frameSize := by
  intro i hi k hk
  rw [h.instructions] at hi
  rcases List.mem_cons.1 hi with rfl | hi
  · cases hk
  · rcases List.mem_cons.1 hi with rfl | hi
    · cases hk
    · exact h.checked.slot_lt hi hk

end Bytecode

theorem names_of_compile {source : String} {capacity : Nat} {b : Bytecode}
    (h : compile source capacity = .ok b) :
    b.symbols.names.toList = distinctNames (TokenStream.ofSource source).tokens := by
  obtain ⟨entry, param, d, -, rfl⟩ := compile_eq_ok.1 h
  exact (TokenStream.yields_ofSource source).slotIn.1

theorem listable_of_compile {source : String} {capacity : Nat} {b : Bytecode}
    (h : compile source capacity = .ok b) (hcapacity : capacity ≤ Word.sizeLimit) : b.Listable := by
  obtain ⟨body, hbody⟩ := exists_wellFormed h hcapacity
  refine ⟨fun x hx => ?_, hbody.param, hbody.slot_lt, hbody.all_encodable⟩
  rw [names_of_compile h, distinctNames, List.mem_eraseDups] at hx
  obtain ⟨t, ht, hname⟩ := List.mem_filterMap.1 hx
  cases t with
  | ident y k =>
    obtain rfl := Option.some.inj hname
    exact (TokenStream.yields_ofSource source).names y k ht
  | _ => cases hname

/-- The listing of compiled code has a line for each slot, with the name that it has in the source, and
one for each instruction. Programs with the same listing are the same. -/
theorem listing_loses_nothing {source : String} {capacity : Nat} {b : Bytecode}
    (h : compile source capacity = .ok b) (hcapacity : capacity ≤ Word.sizeLimit) :
    b.symbols.names.toList = distinctNames (TokenStream.ofSource source).tokens ∧
    (∃ slots code, b.ListedAs slots code) ∧
    ∀ source' capacity' b', compile source' capacity' = .ok b' → capacity' ≤ Word.sizeLimit →
      b.listing = b'.listing → b.instructions = b'.instructions ∧ b.paramSlot = b'.paramSlot ∧
        b.symbols.names = b'.symbols.names := by
  have hlistable := listable_of_compile h hcapacity
  refine ⟨names_of_compile h, ⟨_, _, hlistable.listedAs⟩, fun source' capacity' b' h' hcapacity' => ?_⟩
  exact hlistable.eq_of_listing (listable_of_compile h' hcapacity')

/-- Two sources that are spelled differently. -/
theorem listing_loses_nothing_spelling : ∃ b b' slots code,
    compile "f(n) \x7b x = n; return x - 2; \x7d" 40 = .ok b ∧
    compile "f(n)\x7bx=n;\n\x7breturn (x) - 002;\x7d\x7d" 14 = .ok b' ∧ b.listing = b'.listing ∧
    b.instructions = b'.instructions ∧ b.paramSlot = b'.paramSlot ∧
    b.symbols.names = b'.symbols.names ∧ b.ListedAs slots code ∧ slots.length = 3 := by
  have hfirst : (compile "f(n) \x7b x = n; return x - 2; \x7d" 40).toOption.map
      (fun b => (b.listing, b.frameSize)) =
      some ("slot 0: f\nslot 1: n  parameter\nslot 2: x\n   0  CALL 3\n   2  STOP\n" ++
        "   3  LOAD 1  (n)\n   5  STORE 2  (x)\n   7  LOAD 2  (x)\n   9  PUSH 2\n  11  SUB\n" ++
        "  12  RETURN\n  13  NOP\n", 3) := by
    decide +kernel
  have hsecond : (compile "f(n)\x7bx=n;\n\x7breturn (x) - 002;\x7d\x7d" 14).toOption.map
      (fun b => b.listing) =
      some ("slot 0: f\nslot 1: n  parameter\nslot 2: x\n   0  CALL 3\n   2  STOP\n" ++
        "   3  LOAD 1  (n)\n   5  STORE 2  (x)\n   7  LOAD 2  (x)\n   9  PUSH 2\n  11  SUB\n" ++
        "  12  RETURN\n  13  NOP\n") := by
    decide +kernel
  obtain ⟨b, hb, hfirst⟩ := Option.map_eq_some_iff.1 hfirst
  obtain ⟨hlisting, hsize⟩ := Prod.mk.inj hfirst
  obtain ⟨b', hb', hlisting'⟩ := Option.map_eq_some_iff.1 hsecond
  have hsame : b.listing = b'.listing := hlisting.trans hlisting'.symm
  obtain ⟨-, ⟨slots, code, hshows⟩, hinj⟩ :=
    listing_loses_nothing (eq_ok_of_toOption hb) (by decide)
  obtain ⟨hinstructions, hparam, hnames⟩ := hinj _ 14 b' (eq_ok_of_toOption hb') (by decide) hsame
  exact ⟨b, b', slots, code, eq_ok_of_toOption hb, eq_ok_of_toOption hb', hsame, hinstructions, hparam,
    hnames, hshows, hshows.length_slots.trans hsize⟩

end Solo
