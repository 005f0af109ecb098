/-
  The assembly text loses nothing that matters.

  A line of assembly is a mnemonic and operands, several instructions share a mnemonic, and the
  numerals of wide operands have no fixed length.  Still the text says which instruction it is.

  1. **A layout for each opcode.**  The text of an instruction is the layout of its opcode, literal
     characters and operands in turn, with the operands written in (`toList_text`).
  2. **Where a numeral ends can be seen**: no layout has a digit, or another operand, right behind an
     operand.  So two layouts that write the same text do so piece by piece — literal characters agree,
     and so do the numerals that stand in the same place (`meets_of_write_eq`, `numeral_eq_of_write_eq`).
  3. **No two layouts meet**: some literal character tells them apart, or a literal stands where the
     other has a numeral (`eq_of_meets`, one finite check).
  4. So the text determines the opcode and every operand it shows.  The shifts are the only ones that
     leave an operand out, the second register, and carrying a shift out looks at the first alone.
-/
import Chip8.Machine.Execute
import Chip8.Instruction.Text
import Chip8.Proofs.Format
import Chip8.Proofs.Numeral

namespace Chip8

/-! ## Layouts -/

/-- One piece of a layout. -/
inductive Piece where
  /-- A literal character. -/
  | is (c : Char)
  /-- The numeral of an operand. -/
  | of (field : Field)
deriving DecidableEq

/-- A row of pieces, from left to right. -/
abbrev Layout := List Piece

/-- The numeral of an operand. -/
def Field.numeral : Field → Nat → List Char
  | address, n => Hex.paddedDigits 3 n
  | byte, n => Hex.paddedDigits 2 n
  | rows, n => Hex.digits n
  | x, n | y, n => Hex.capitals n

namespace Field

/-- A numeral is read as the operand. -/
theorem readDigits_numeral (f : Field) {bound n : Nat} (hn : n < bound) :
    CommandLine.Integer.readDigits 16 bound (f.numeral n) 0 = .ok n := by
  cases f with
  | address => exact Hex.readDigits_paddedDigits 3 hn
  | byte => exact Hex.readDigits_paddedDigits 2 hn
  | rows => exact Hex.readDigits_digits hn
  | x => exact Hex.readDigits_capitals hn
  | y => exact Hex.readDigits_capitals hn

theorem numeral_inj {f : Field} {m n : Nat} (h : f.numeral m = f.numeral n) : m = n :=
  Hex.inj_of_readDigits f.readDigits_numeral h

theorem isDigit_of_mem_numeral {f : Field} {n : Nat} : ∀ c ∈ f.numeral n, Hex.isDigit c :=
  CommandLine.Integer.digit_of_readDigits (f.readDigits_numeral (Nat.lt_succ_self n))

theorem numeral_ne_nil (f : Field) (n : Nat) : f.numeral n ≠ [] := by
  cases f with
  | address => exact Hex.paddedDigits_ne_nil 3 n
  | byte => exact Hex.paddedDigits_ne_nil 2 n
  | rows => exact Hex.digits_ne_nil n
  | x => exact Hex.capitals_ne_nil n
  | y => exact Hex.capitals_ne_nil n

/-- A numeral begins with a digit. -/
theorem numeral_eq_cons (f : Field) (n : Nat) :
    ∃ c cs, f.numeral n = c :: cs ∧ Hex.isDigit c = true := by
  obtain ⟨c, cs, hnumeral⟩ := List.exists_cons_of_ne_nil (f.numeral_ne_nil n)
  exact ⟨c, cs, hnumeral, isDigit_of_mem_numeral c (hnumeral ▸ List.mem_cons_self ..)⟩

end Field

namespace Layout

/-- The characters of a text, each literal. -/
def literal (s : String) : Layout := s.toList.map .is

/-- The text of a layout with these operands. -/
def write (operand : Field → Nat) : Layout → List Char
  | [] => []
  | .is c :: layout => c :: write operand layout
  | .of f :: layout => f.numeral (operand f) ++ write operand layout

@[simp] theorem write_append (operand : Field → Nat) (l m : Layout) :
    write operand (l ++ m) = write operand l ++ write operand m := by
  induction l with
  | nil => rfl
  | cons piece l ih =>
    cases piece with
    | is c => exact congrArg (c :: ·) ih
    | of f =>
      rw [List.cons_append, write, write, ih, List.append_assoc]

@[simp] theorem write_literal (operand : Field → Nat) (s : String) :
    write operand (literal s) = s.toList := by
  unfold literal
  induction s.toList with
  | nil => rfl
  | cons c cs ih => exact congrArg (c :: ·) ih

/-- Can what the layout begins with be no digit? -/
def endsNumeral : Layout → Bool
  | [] => true
  | .is c :: _ => !Hex.isDigit c
  | .of _ :: _ => false

/-- Can one see where each numeral ends? -/
def separated : Layout → Bool
  | [] => true
  | .is _ :: layout => separated layout
  | .of _ :: layout => endsNumeral layout && separated layout

/-- Could two layouts write the same text, as far as their literal characters tell? -/
def meets : Layout → Layout → Bool
  | [], [] => true
  | .is c :: l, .is d :: m => c == d && meets l m
  | .of _ :: l, .of _ :: m => meets l m
  | .is c :: _, .of _ :: _ | .of _ :: _, .is c :: _ => Hex.isDigit c
  | _, _ => false

variable {a b : Field → Nat}

theorem head_of_endsNumeral {l : Layout} (hl : l.endsNumeral = true) :
    ∀ c ∈ (l.write a).head?, ¬ Hex.isDigit c := by
  intro c hc
  cases l with
  | nil => cases hc
  | cons piece l =>
    cases piece with
    | of f => cases hl
    | is d =>
      obtain rfl := Option.some.inj hc
      simpa [endsNumeral] using hl

/-- Two numerals with what follows them agree part by part. -/
theorem inj_of_endsNumeral {l m : Layout} {f g : Field} {i j : Nat} (hl : l.endsNumeral = true)
    (hm : m.endsNumeral = true) (h : f.numeral i ++ l.write a = g.numeral j ++ m.write b) :
    f.numeral i = g.numeral j ∧ l.write a = m.write b :=
  Hex.append_inj_of_digits Field.isDigit_of_mem_numeral Field.isDigit_of_mem_numeral
    (head_of_endsNumeral hl) (head_of_endsNumeral hm) h

/-- A character before a text that begins with a numeral is a digit. -/
theorem isDigit_of_cons_eq {c : Char} {rest rest' : List Char} {f : Field} {n : Nat}
    (h : c :: rest = f.numeral n ++ rest') : Hex.isDigit c = true := by
  obtain ⟨d, ds, hnumeral, hd⟩ := f.numeral_eq_cons n
  rw [hnumeral] at h
  rw [List.head_eq_of_cons_eq h]
  exact hd

theorem numeral_append_ne_nil {f : Field} {n : Nat} {rest : List Char} :
    f.numeral n ++ rest ≠ [] :=
  List.append_ne_nil_of_left_ne_nil (f.numeral_ne_nil n) rest

/-- **Layouts that write the same text meet.** -/
theorem meets_of_write_eq {l m : Layout} (hl : l.separated = true) (hm : m.separated = true)
    (h : l.write a = m.write b) : l.meets m = true := by
  induction l generalizing m with
  | nil =>
    match m with
    | [] => rfl
    | .is _ :: _ => cases h
    | .of _ :: _ => exact absurd h.symm numeral_append_ne_nil
  | cons piece l ih =>
    match piece, m with
    | .is _, [] => cases h
    | .of _, [] => exact absurd h numeral_append_ne_nil
    | .is c, .is d :: m =>
      obtain ⟨rfl, hrest⟩ := List.cons.inj h
      have hmeets := ih hl (m := m) hm hrest
      simpa [meets] using hmeets
    -- A literal in the place of a numeral may be its first digit; more is not known of it.
    | .is c, .of g :: m => exact isDigit_of_cons_eq h
    | .of f, .is d :: m => exact isDigit_of_cons_eq h.symm
    | .of f, .of g :: m =>
      simp only [separated, Bool.and_eq_true] at hl hm
      exact ih hl.2 hm.2 (inj_of_endsNumeral hl.1 hm.1 h).2

/-- **A layout shows its operands**: the text determines the numeral of each. -/
theorem numeral_eq_of_write_eq {l : Layout} (hl : l.separated = true) (h : l.write a = l.write b)
    {f : Field} (hf : .of f ∈ l) : f.numeral (a f) = f.numeral (b f) := by
  induction l with
  | nil => cases hf
  | cons piece l ih =>
    cases piece with
    | is c =>
      have hf : .of f ∈ l := by simpa using hf
      exact ih hl (List.cons.inj h).2 hf
    | of g =>
      simp only [separated, Bool.and_eq_true] at hl
      obtain ⟨hnumeral, hrest⟩ := inj_of_endsNumeral hl.1 hl.1 h
      rcases List.mem_cons.mp hf with hfg | hf
      · obtain rfl := Piece.of.inj hfg
        exact hnumeral
      · exact ih hl.2 hrest hf

end Layout

/-! ## The layout of each opcode -/

namespace Opcode

open Layout (literal)

/-- The layout of an opcode's text. -/
def layout : Opcode → Layout
  | clearScreen => literal "cls    "
  | returnFromCall => literal "ret    "
  | jump => literal "jmp    " ++ [.of .address]
  | call => literal "call   " ++ [.of .address]
  | skipIfByte => literal "se     #" ++ [.of .byte] ++ literal ", v" ++ [.of .x]
  | skipUnlessByte => literal "sne    #" ++ [.of .byte] ++ literal ", v" ++ [.of .x]
  | skipIfEqual => literal "se     v" ++ [.of .y] ++ literal ", v" ++ [.of .x]
  | setByte => literal "mov    #" ++ [.of .byte] ++ literal ", v" ++ [.of .x]
  | addByte => literal "add    #" ++ [.of .byte] ++ literal ", v" ++ [.of .x]
  | copy => literal "mov    v" ++ [.of .y] ++ literal ", v" ++ [.of .x]
  | bitOr => literal "or     v" ++ [.of .y] ++ literal ", v" ++ [.of .x]
  | bitAnd => literal "and    v" ++ [.of .y] ++ literal ", v" ++ [.of .x]
  | bitXor => literal "xor    v" ++ [.of .y] ++ literal ", v" ++ [.of .x]
  | add => literal "add    v" ++ [.of .y] ++ literal ", v" ++ [.of .x]
  | subtract => literal "sub    v" ++ [.of .y] ++ literal ", v" ++ [.of .x]
  | shiftRight => literal "shr    v" ++ [.of .x]
  | subtractFrom => literal "bsub   v" ++ [.of .y] ++ literal ", v" ++ [.of .x]
  | shiftLeft => literal "shl    v" ++ [.of .x]
  | skipUnlessEqual => literal "sne    v" ++ [.of .y] ++ literal ", v" ++ [.of .x]
  | setIndex => literal "mov    $" ++ [.of .address] ++ literal ", I"
  | jumpOffset => literal "jmp    $" ++ [.of .address] ++ literal "+v0"
  | random => literal "rand   #" ++ [.of .byte] ++ literal ", v" ++ [.of .x]
  | draw => literal "draw   #" ++ [.of .rows] ++ literal ", v" ++ [.of .x] ++ literal ", v"
      ++ [.of .y]
  | readDelay => literal "mov    DT, v" ++ [.of .x]
  | setDelay => literal "mov    v" ++ [.of .x] ++ literal ", DT"
  | setSound => literal "mov    v" ++ [.of .x] ++ literal ", ST"
  | addIndex => literal "add    v" ++ [.of .x] ++ literal ", I"
  | pointGlyph => literal "font   v" ++ [.of .x] ++ literal ", I"
  | storeDecimal => literal "bcd    v" ++ [.of .x] ++ literal ", &I"
  | storeRegisters => literal "dmao   v" ++ [.of .x]
  | loadRegisters => literal "dmai   v" ++ [.of .x]

theorem separated_layout (op : Opcode) : op.layout.separated = true := by
  cases op <;> decide

/-- No two layouts meet. -/
theorem eq_of_meets : ∀ a ∈ all, ∀ b ∈ all, a.layout.meets b.layout = true → a = b := by
  decide

/-- The operands that a text leaves out. -/
def hidden : Opcode → List Field
  | shiftRight | shiftLeft => [.y]
  | _ => []

theorem shift_of_hidden {op : Opcode} (h : op.hidden ≠ []) : op = shiftRight ∨ op = shiftLeft := by
  cases op <;> simp [hidden] at h ⊢

theorem mem_layout (op : Opcode) {f : Field} (hf : f ∈ op.fields) (hshown : f ∉ op.hidden) :
    .of f ∈ op.layout := by
  cases op <;> cases f <;> first | decide | (simp [fields, hidden] at hf hshown)

/-- Every text begins with a letter, which is no i. -/
theorem layout_eq_cons (op : Opcode) : ∃ c layout, op.layout = .is c :: layout ∧ c ≠ 'i' := by
  cases op <;> exact ⟨_, _, rfl, by decide⟩

end Opcode

/-! ## The text of an instruction -/

namespace Instruction

/-- A text is the layout of its opcode with the operands written in. -/
theorem toList_text (i : Instruction) : i.text.toList = i.opcode.layout.write i.operand := by
  cases i <;> simp [text, opcode, operand, Opcode.layout, Layout.write, Field.numeral, addressText,
    byteText, registerText]

/-- The text determines the opcode. -/
theorem opcode_eq_of_text_eq {a b : Instruction} (h : a.text = b.text) : a.opcode = b.opcode := by
  have hlist := congrArg String.toList h
  rw [toList_text, toList_text] at hlist
  have hmeets := Layout.meets_of_write_eq a.opcode.separated_layout b.opcode.separated_layout hlist
  exact Opcode.eq_of_meets _ (Opcode.mem_all _) _ (Opcode.mem_all _) hmeets

/-- The text determines every operand it shows. -/
theorem operand_eq_of_text_eq {a b : Instruction} (h : a.text = b.text) {f : Field}
    (hf : f ∈ a.opcode.fields) (hshown : f ∉ a.opcode.hidden) : a.operand f = b.operand f := by
  have hlist := congrArg String.toList h
  rw [toList_text, toList_text, ← opcode_eq_of_text_eq h] at hlist
  exact Field.numeral_inj (Layout.numeral_eq_of_write_eq a.opcode.separated_layout hlist
    (a.opcode.mem_layout hf hshown))

/-- Two shifts of one register in one direction — the second register may differ. -/
def SameShift (a b : Instruction) : Prop :=
  ∃ x y y', (a = shiftRight x y ∧ b = shiftRight x y') ∨ (a = shiftLeft x y ∧ b = shiftLeft x y')

/-- Texts are equal exactly if the instructions are, up to what a shift ignores. -/
theorem text_eq_iff {a b : Instruction} : a.text = b.text ↔ a = b ∨ SameShift a b := by
  constructor
  · intro h
    have hop := opcode_eq_of_text_eq h
    have ha := (instruction_opcode_operand a).symm
    have hb := (instruction_opcode_operand b).symm
    rw [← hop] at hb
    -- If the text shows all operands it determines all of the instruction.
    by_cases hhidden : a.opcode.hidden = []
    · left
      rw [ha, hb]
      refine a.opcode.instruction_congr fun f hf => operand_eq_of_text_eq h hf ?_
      rw [hhidden]
      exact List.not_mem_nil
    · right
      have hx := operand_eq_of_text_eq h (f := .x)
      rcases Opcode.shift_of_hidden hhidden with hshift | hshift
      · rw [hshift] at ha hb hx
        have hb : b = shiftRight (b.operand .x) (b.operand .y) := hb
        rw [← hx (by decide) (by decide)] at hb
        exact ⟨a.operand .x, a.operand .y, b.operand .y, .inl ⟨ha, hb⟩⟩
      · rw [hshift] at ha hb hx
        have hb : b = shiftLeft (b.operand .x) (b.operand .y) := hb
        rw [← hx (by decide) (by decide)] at hb
        exact ⟨a.operand .x, a.operand .y, b.operand .y, .inr ⟨ha, hb⟩⟩
  · rintro (rfl | ⟨x, y, y', ⟨rfl, rfl⟩ | ⟨rfl, rfl⟩⟩)
    · rfl
    · rfl
    · rfl

/-- What is carried out is what the text says. -/
theorem perform_eq_of_text_eq {ρ : Type} [ByteSource ρ] (m : Machine ρ) {a b : Instruction}
    (h : a.text = b.text) : m.perform a = m.perform b := by
  rcases text_eq_iff.mp h with rfl | ⟨x, y, y', ⟨rfl, rfl⟩ | ⟨rfl, rfl⟩⟩
  · rfl
  · rfl
  · rfl

/-- No instruction is named like a word that is none. -/
theorem text_ne_inval (i : Instruction) (rest : String) : i.text ≠ "inval" ++ rest := by
  intro h
  have hlist := congrArg String.toList h
  obtain ⟨c, layout, hlayout, hc⟩ := i.opcode.layout_eq_cons
  rw [toList_text, hlayout, String.toList_append] at hlist
  exact hc (List.head_eq_of_cons_eq hlist)

end Instruction

/-! ## The text of a word -/

namespace Word

theorem text_of_some {w : UInt16} {i : Instruction} (h : Instruction.ofWord? w = some i) :
    text w = i.text := by
  rw [text, h]

theorem text_of_none {w : UInt16} (h : Instruction.ofWord? w = none) :
    text w = "inval" ++ ("  " ++ Hex.padded 4 w.toNat) := by
  rw [text, h, ← String.append_assoc]
  rfl

/-- The words that are no instructions are those whose text says so. -/
theorem text_inval_iff {w : UInt16} :
    (∃ rest, text w = "inval" ++ rest) ↔ Instruction.ofWord? w = none := by
  constructor
  · rintro ⟨rest, h⟩
    cases hw : Instruction.ofWord? w with
    | none => rfl
    | some i =>
      rw [text_of_some hw] at h
      exact absurd h (i.text_ne_inval rest)
  · intro hw
    exact ⟨_, text_of_none hw⟩

/-- A word that is no instruction is determined by its text. -/
theorem eq_of_text_of_none {v w : UInt16} (hv : Instruction.ofWord? v = none)
    (h : text v = text w) : v = w := by
  have hw : Instruction.ofWord? w = none := text_inval_iff.mp ⟨_, h ▸ text_of_none hv⟩
  rw [text_of_none hv, text_of_none hw, String.append_right_inj, String.append_right_inj] at h
  exact UInt16.toNat_inj.mp (Hex.padded_inj h)

/-- Words with one text do the same, whatever the machine. -/
theorem executeWord_eq_of_text_eq {ρ : Type} [ByteSource ρ] (m : Machine ρ) {v w : UInt16}
    (h : text v = text w) : m.executeWord v = m.executeWord w := by
  cases hv : Instruction.ofWord? v with
  | none => rw [eq_of_text_of_none hv h]
  | some i =>
    cases hw : Instruction.ofWord? w with
    | none =>
      rw [eq_of_text_of_none hw h.symm]
    | some j =>
      rw [text_of_some hv, text_of_some hw] at h
      rw [Machine.executeWord, Machine.executeWord, hv, hw]
      exact Instruction.perform_eq_of_text_eq m h

end Word

/-- **The disassembly loses nothing that matters.**
    * Two instructions have one text exactly if they are equal, or shift the same register in the same
      direction.
    * No instruction has a text that begins like that of a word which is none; all those words have
      such a text, and it determines them.
    * Two words with one text do the same to every machine, failures included. -/
theorem disassembly_faithful :
    (∀ a b : Instruction, a.text = b.text ↔ a = b ∨ a.SameShift b)
    ∧ (∀ (i : Instruction) (rest : String), i.text ≠ "inval" ++ rest)
    ∧ (∀ w : UInt16, (∃ rest, Word.text w = "inval" ++ rest) ↔ Instruction.ofWord? w = none)
    ∧ (∀ v w : UInt16, Instruction.ofWord? v = none → Word.text v = Word.text w → v = w)
    ∧ (∀ v w : UInt16, Word.text v = Word.text w →
        ∀ (ρ : Type) [ByteSource ρ] (m : Machine ρ), m.executeWord v = m.executeWord w) := by
  refine ⟨fun a b => Instruction.text_eq_iff, fun i rest => i.text_ne_inval rest,
    fun w => Word.text_inval_iff, fun v w hv h => Word.eq_of_text_of_none hv h, ?_⟩
  intro v w h ρ _ m
  exact Word.executeWord_eq_of_text_eq m h

example : Word.text 0x8a36 = "shr    vA" ∧ Word.text 0x8a36 = Word.text 0x8a46 := by decide

end Chip8
