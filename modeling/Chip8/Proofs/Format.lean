/-
  The instruction format is a bijection.

  A format is a row of slots.  Everything here comes from three facts about one such row, each proved
  by walking along it:
    * what is written has the format (`accepts_write`);
    * reading gives back what was written, cut to the places the format has (`read_write`);
    * writing what was read gives back the digits (`write_of_agree`).
  On top of that, no row of digits has two of the thirty-one formats: any two of them fix different
  digits in some place (`clash`), which is a finite check.  So looking for the first format that fits
  is looking for the only one, and a word and its instruction determine each other.
-/
import Chip8.Instruction.Format

namespace Chip8

/-! ## Reading and writing one format -/

namespace Format

theorem length_write (operand : Field → Nat) (format : Format) :
    (write operand format).length = format.length := by
  induction format with
  | nil => rfl
  | cons slot format ih => cases slot <;> simp only [write, List.length_cons, ih]

theorem accepts_write (operand : Field → Nat) (format : Format) :
    format.accepts (write operand format) = true := by
  induction format with
  | nil => rfl
  | cons slot format ih => cases slot <;> simp [write, accepts, ih]

/-- Written digits are digits, as long as the fixed ones are. -/
theorem lt_of_mem_write {operand : Field → Nat} {format : Format}
    (hfixed : ∀ d, Slot.is d ∈ format → d < 16) : ∀ d ∈ write operand format, d < 16 := by
  induction format with
  | nil => intro d hd; cases hd
  | cons slot format ih =>
    have hrest := ih fun d hd => hfixed d (List.mem_cons_of_mem _ hd)
    intro d hd
    cases slot with
    | is e =>
      rcases List.mem_cons.mp hd with heq | hd
      · exact heq ▸ hfixed e (List.mem_cons_self ..)
      · exact hrest d hd
    | of f =>
      rcases List.mem_cons.mp hd with heq | hd
      · exact heq ▸ Nat.mod_lt _ (by omega)
      · exact hrest d hd

theorem weight_pos (field : Field) (format : Format) : 0 < weight field format := by
  induction format with
  | nil => exact Nat.one_pos
  | cons slot format ih =>
    cases slot with
    | is e => exact ih
    | of f =>
      unfold weight
      split <;> omega

/-- An operand is below what the next digit of it would count. -/
theorem read_lt (field : Field) (format : Format) (digits : List Nat) (hd : ∀ d ∈ digits, d < 16) :
    read field format digits < weight field format := by
  induction format generalizing digits with
  | nil => exact Nat.one_pos
  | cons slot format ih =>
    cases digits with
    | nil => cases slot <;> exact weight_pos ..
    | cons d digits =>
      have hrest := ih digits fun e he => hd e (List.mem_cons_of_mem _ he)
      cases slot with
      | is e => exact hrest
      | of f =>
        rw [read, weight]
        by_cases hf : f = field
        · -- The digit `d` leads the operand, which is therefore below what `d + 1` would count.
          have hd16 : d < 16 := hd d (List.mem_cons_self ..)
          have hstep : (d + 1) * weight field format ≤ 16 * weight field format :=
            Nat.mul_le_mul_right _ hd16
          rw [if_pos hf, if_pos hf]
          rw [Nat.add_mul] at hstep
          omega
        · rw [if_neg hf, if_neg hf]
          exact hrest

/-- **Reading inverts writing**, up to the places there are for the operand. -/
theorem read_write (field : Field) (operand : Field → Nat) (format : Format) :
    read field format (write operand format) = operand field % weight field format := by
  induction format with
  | nil => exact (Nat.mod_one _).symm
  | cons slot format ih =>
    cases slot with
    | is e => exact ih
    | of f =>
      rw [write, read, weight]
      by_cases hf : f = field
      · rw [if_pos hf, if_pos hf, ih, hf, Nat.mul_comm 16, Nat.mod_mul, Nat.mul_comm, Nat.add_comm]
      · rw [if_neg hf, if_neg hf, ih]

/-- A row of digits is written by any operands that agree with those it is read as. -/
theorem write_of_agree {operand : Field → Nat} {format : Format} {digits : List Nat}
    (hfit : format.accepts digits = true) (hd : ∀ d ∈ digits, d < 16)
    (hagree : ∀ f, operand f % weight f format = read f format digits) :
    write operand format = digits := by
  induction format generalizing digits with
  | nil =>
    cases digits with
    | nil => rfl
    | cons d digits => cases hfit
  | cons slot format ih =>
    cases digits with
    | nil => cases slot <;> cases hfit
    | cons d digits =>
      have hd' : ∀ e ∈ digits, e < 16 := fun e he => hd e (List.mem_cons_of_mem _ he)
      cases slot with
      | is e =>
        simp only [accepts, Bool.and_eq_true, beq_iff_eq] at hfit
        have hrest := ih hfit.2 hd' hagree
        rw [write, hrest, hfit.1]
      | of g =>
        -- Both sides of `hg` are a quotient and a remainder by what the next digit counts, so they
        -- agree digit by digit.
        have hg := hagree g
        rw [weight, read, if_pos rfl, if_pos rfl, Nat.mul_comm 16, Nat.mod_mul] at hg
        have hpos := weight_pos g format
        have hwrote := (Nat.div_mod_unique hpos).mpr ⟨hg, Nat.mod_lt _ hpos⟩
        have hread : (d * weight g format + read g format digits) / weight g format = d
            ∧ (d * weight g format + read g format digits) % weight g format
              = read g format digits :=
          (Nat.div_mod_unique hpos).mpr
            ⟨by rw [Nat.mul_comm, Nat.add_comm], read_lt g format digits hd'⟩
        have hquot := hwrote.1.symm.trans hread.1
        have hrem := hwrote.2.symm.trans hread.2
        have hrest := ih hfit hd' fun f => by
          by_cases hf : g = f
          · exact hf ▸ hrem
          · have hother := hagree f
            rwa [weight, read, if_neg hf, if_neg hf] at hother
        rw [write, hrest, hquot]

end Format

/-! ## No row of digits has two formats -/

namespace Format

/-- Do two formats fix different digits in some place? -/
def clash : Format → Format → Bool
  | .is d :: format, .is e :: other => d != e || clash format other
  | _ :: format, _ :: other => clash format other
  | _, _ => false

/-- A row of digits has at most one of two formats that clash. -/
theorem not_accepts_of_clash {format other : Format} {digits : List Nat}
    (hclash : clash format other = true) (hfit : format.accepts digits = true) :
    other.accepts digits = false := by
  induction format generalizing other digits with
  | nil => cases other <;> cases hclash
  | cons slot format ih =>
    cases other with
    | nil => cases slot <;> cases hclash
    | cons slot' other =>
      cases digits with
      | nil => cases slot <;> cases hfit
      | cons d digits =>
        cases slot with
        | of f =>
          have htail : clash format other = true := by cases slot' <;> exact hclash
          have hrest := ih htail hfit
          cases slot' <;> simp [accepts, hrest]
        | is e =>
          simp only [accepts, Bool.and_eq_true, beq_iff_eq] at hfit
          cases slot' with
          | of f =>
            show accepts other digits = false
            exact ih hclash hfit.2
          | is e' =>
            simp only [clash, Bool.or_eq_true, bne_iff_ne] at hclash
            rcases hclash with hne | hclash
            · simp [accepts, show e' ≠ d from fun h => hne (hfit.1.trans h.symm)]
            · simp [accepts, ih hclash hfit.2]

end Format

namespace Opcode

theorem clash_format : ∀ a ∈ all, ∀ b ∈ all, a ≠ b → Format.clash a.format b.format = true := by
  decide

theorem length_format (op : Opcode) : op.format.length = 4 := by cases op <;> rfl

theorem fixed_lt_format (op : Opcode) : ∀ d, Slot.is d ∈ op.format → d < 16 := by
  intro d hd
  cases op <;> simp [format] at hd <;> omega

/-- **Patterns are disjoint**: a row of digits has the format of one opcode at most. -/
theorem eq_of_accepts {a b : Opcode} {digits : List Nat} (ha : a.format.accepts digits = true)
    (hb : b.format.accepts digits = true) : a = b := by
  by_cases hab : a = b
  · exact hab
  · have hclash := clash_format a (mem_all a) b (mem_all b) hab
    exact absurd hb (by simp [Format.not_accepts_of_clash hclash ha])

end Opcode

/-! ## Words and their fields -/

namespace Field

/-- The bits a word has for an operand. -/
def bits : Field → Nat
  | address => 12
  | byte => 8
  | rows | x | y => 4

end Field

namespace Word

/-- The customary field of a word where an operand is found. -/
def field (w : UInt16) : Field → Nat
  | .address => (nnn w).toNat
  | .byte => (nn w).toNat
  | .rows => (n w).toNat
  | .x => x w
  | .y => y w

theorem digits_ofDigits {ds : List Nat} (hlen : ds.length = 4) (hd : ∀ d ∈ ds, d < 16) :
    digits (ofDigits ds) = ds := by
  match ds, hlen with
  | [a, b, c, d], _ =>
    simp only [List.mem_cons, List.not_mem_nil, or_false, forall_eq_or_imp, forall_eq] at hd
    simp only [digits, ofDigits, List.foldl_cons, List.foldl_nil, UInt16.toNat_ofNat',
      List.cons.injEq, and_true]
    omega

theorem field_lt (w : UInt16) (f : Field) : field w f < 1 <<< f.bits := by
  have hadr := toNat_nnn w
  have hbyte := toNat_nn w
  have hrows := toNat_n w
  have hx := x_eq w
  have hy := y_eq w
  cases f <;> simp only [field, Field.bits] <;> omega

theorem bytes_inj {v w : UInt16} (h : bytes v = bytes w) : v = w := by
  simp only [bytes, List.cons.injEq, and_true] at h
  rw [← ofBytes_bytes v, ← ofBytes_bytes w, h.1, h.2]

/-- Every format has its operands where the customary fields of a word are. -/
theorem read_format (w : UInt16) (op : Opcode) {f : Field} (hf : f ∈ op.fields) :
    op.format.read f (digits w) = field w f := by
  have hw := w.toNat_lt
  have hadr := toNat_nnn w
  have hbyte := toNat_nn w
  have hrows := toNat_n w
  have hx := x_eq w
  have hy := y_eq w
  cases op <;> cases f <;> simp [Opcode.fields] at hf <;>
    simp [Opcode.format, Format.read, Format.weight, digits, field] <;> omega

end Word

/-! ## Decoding and encoding -/

namespace Opcode

/-- An instruction depends on the operands its opcode has, and on no others. -/
theorem instruction_congr (op : Opcode) {a b : Field → Nat} (h : ∀ f ∈ op.fields, a f = b f) :
    op.instruction a = op.instruction b := by
  cases op <;> simp_all [fields, instruction]

/-- The places a format has for an operand make up its bits. -/
theorem weight_format (op : Opcode) {f : Field} (hf : f ∈ op.fields) :
    Format.weight f op.format = 1 <<< f.bits := by
  cases op <;> cases f <;> first | rfl | simp [fields] at hf

theorem weight_format_eq_one (op : Opcode) {f : Field} (hf : f ∉ op.fields) :
    Format.weight f op.format = 1 := by
  cases op <;> cases f <;> first | rfl | simp [fields] at hf

/-- An operand that fits into its bits is kept as it is. -/
theorem operand_instruction (op : Opcode) {a : Field → Nat} {f : Field} (hf : f ∈ op.fields)
    (ha : a f < 1 <<< f.bits) : (op.instruction a).operand f = a f := by
  cases op <;> cases f <;> simp [fields] at hf <;>
    simp [Field.bits] at ha <;> simp [instruction, Instruction.operand] <;> omega

end Opcode

namespace Instruction

/-- The instruction with every operand cut to the bits a word has for it. -/
def cut (i : Instruction) : Instruction := i.opcode.instruction fun f => i.operand f % 1 <<< f.bits

/-- A word that has the format of an opcode stands for that opcode, with the word's own fields as
operands. -/
theorem ofWord?_of_accepts {op : Opcode} {w : UInt16}
    (hfit : op.format.accepts (Word.digits w) = true) :
    ofWord? w = some (op.instruction (Word.field w)) := by
  -- The first format that fits is this one, since it is the only one.
  have hfind : Opcode.all.find? (·.format.accepts (Word.digits w)) = some op := by
    cases hfound : Opcode.all.find? (·.format.accepts (Word.digits w)) with
    | none => exact absurd hfit (List.find?_eq_none.mp hfound op (Opcode.mem_all op))
    | some other =>
      have hother := List.find?_some hfound
      rw [Opcode.eq_of_accepts hother hfit]
  rw [ofWord?, hfind]
  exact congrArg some (op.instruction_congr fun f hf => Word.read_format w op hf)

/-- A word stands for an instruction exactly if it has the format of its opcode. -/
theorem ofWord?_eq_some_iff {w : UInt16} {i : Instruction} :
    ofWord? w = some i ↔ i.opcode.format.accepts (Word.digits w) = true
      ∧ i = i.opcode.instruction (Word.field w) := by
  constructor
  · intro h
    cases hfound : Opcode.all.find? (·.format.accepts (Word.digits w)) with
    | none => simp [ofWord?, hfound] at h
    | some op =>
      have hfit := List.find?_some hfound
      obtain rfl := Option.some.inj (h.symm.trans (ofWord?_of_accepts hfit))
      rw [opcode_instruction]
      exact ⟨hfit, rfl⟩
  · rintro ⟨hfit, hi⟩
    rw [hi]
    exact ofWord?_of_accepts hfit

theorem ofWord?_eq_none_iff {w : UInt16} :
    ofWord? w = none ↔ ∀ op : Opcode, op.format.accepts (Word.digits w) = false := by
  constructor
  · intro h op
    by_cases hfit : op.format.accepts (Word.digits w) = true
    · rw [ofWord?_of_accepts hfit] at h
      cases h
    · exact Bool.eq_false_iff.mpr hfit
  · intro h
    rw [ofWord?, List.find?_eq_none.mpr fun op _ => by simp [h op]]
    rfl

/-- The operands of a decoded word are its fields. -/
theorem operand_of_ofWord? {w : UInt16} {i : Instruction} (h : ofWord? w = some i) {f : Field}
    (hf : f ∈ i.opcode.fields) : i.operand f = Word.field w f := by
  rw [(ofWord?_eq_some_iff.mp h).2, opcode_instruction] at *
  exact Opcode.operand_instruction _ hf (Word.field_lt w f)

/-! ### The two directions -/

/-- The digits of an instruction's word are those its format writes. -/
theorem digits_toWord (i : Instruction) :
    Word.digits i.toWord = i.opcode.format.write i.operand :=
  Word.digits_ofDigits ((Format.length_write ..).trans i.opcode.length_format)
    (Format.lt_of_mem_write i.opcode.fixed_lt_format)

/-- **Decoding inverts encoding**, up to the bits a word has for the operands. -/
theorem ofWord?_toWord (i : Instruction) : ofWord? i.toWord = some i.cut := by
  have hfit : i.opcode.format.accepts (Word.digits i.toWord) = true := by
    rw [digits_toWord]
    exact Format.accepts_write ..
  rw [ofWord?_of_accepts hfit, cut]
  refine congrArg some (i.opcode.instruction_congr fun f hf => ?_)
  rw [← Word.read_format _ _ hf, digits_toWord, Format.read_write, i.opcode.weight_format hf]

/-- **Encoding inverts decoding.** -/
theorem toWord_of_ofWord? {w : UInt16} {i : Instruction} (h : ofWord? w = some i) :
    i.toWord = w := by
  have hfit := (ofWord?_eq_some_iff.mp h).1
  have hwrite : i.opcode.format.write i.operand = Word.digits w := by
    refine Format.write_of_agree hfit (fun _ hd => Word.digit_lt hd) fun f => ?_
    by_cases hf : f ∈ i.opcode.fields
    · rw [operand_of_ofWord? h hf, Word.read_format w _ hf, i.opcode.weight_format hf]
      exact Nat.mod_eq_of_lt (Word.field_lt w f)
    · -- An operand the format has no place for is read as zero.
      have hnone := i.opcode.weight_format_eq_one hf
      have hread := Format.read_lt f i.opcode.format (Word.digits w) fun _ hd => Word.digit_lt hd
      rw [hnone] at hread ⊢
      omega
  rw [toWord, hwrite, Word.ofDigits_digits]

/-! ### Byte strings -/

/-- Decoding the bytes of a word looks at nothing behind them. -/
theorem decode_bytes (w : UInt16) (rest : List UInt8) :
    decode (Word.bytes w ++ rest) = match ofWord? w with
      | some i => .ok (2, i)
      | none => .error .unknownOpcode := by
  show (match ofWord? (Word.ofBytes _ _) with
    | some i => .ok (2, i)
    | none => .error .unknownOpcode : Except DecodeError (Nat × Instruction)) = _
  rw [Word.ofBytes_bytes]

theorem decode_bytes_eq_ok_iff {w : UInt16} {rest : List UInt8} {k : Nat} {i : Instruction} :
    decode (Word.bytes w ++ rest) = .ok (k, i) ↔ k = 2 ∧ ofWord? w = some i := by
  rw [decode_bytes]
  cases ofWord? w with
  | none => simp
  | some j => simp [eq_comm]

/-! ### The format as a whole -/

/-- **The thirty-one patterns denote a bijective instruction format.**
    * Decoding an encoded instruction takes its two bytes, whatever follows them, and yields the
      instruction with its operands cut to the bits a word has for them.
    * A word that decodes is the encoding of what it decodes to, and the operands are its fields.
    * A word decodes exactly if it encodes some instruction, and then all the instructions it encodes
      have one opcode. -/
theorem format_bijective :
    (∀ (i : Instruction) (rest : List UInt8), decode (i.encode ++ rest) = .ok (2, i.cut))
    ∧ (∀ (w : UInt16) (rest : List UInt8) (k : Nat) (i : Instruction),
        decode (Word.bytes w ++ rest) = .ok (k, i) →
        i.encode = Word.bytes w ∧ ∀ f ∈ i.opcode.fields, i.operand f = Word.field w f)
    ∧ (∀ w : UInt16, (∃ k i, decode (Word.bytes w) = .ok (k, i)) ↔
        ∃ op : Opcode, (∃ i : Instruction, i.opcode = op ∧ i.encode = Word.bytes w)
          ∧ ∀ i : Instruction, i.encode = Word.bytes w → i.opcode = op) := by
  refine ⟨fun i rest => ?_, fun w rest k i h => ?_, fun w => ⟨?_, ?_⟩⟩
  · exact decode_bytes_eq_ok_iff.mpr ⟨rfl, ofWord?_toWord i⟩
  · have hw := (decode_bytes_eq_ok_iff.mp h).2
    exact ⟨congrArg Word.bytes (toWord_of_ofWord? hw), fun f hf => operand_of_ofWord? hw hf⟩
  · rintro ⟨k, i, h⟩
    rw [← List.append_nil (Word.bytes w)] at h
    have hw := (decode_bytes_eq_ok_iff.mp h).2
    refine ⟨i.opcode, ⟨i, rfl, congrArg Word.bytes (toWord_of_ofWord? hw)⟩, fun j hj => ?_⟩
    -- Cutting the operands keeps the opcode, so whatever encodes to `w` has that of `i`.
    have hcut := ofWord?_toWord j
    rw [Word.bytes_inj hj, hw] at hcut
    rw [Option.some.inj hcut, cut, opcode_instruction]
  · rintro ⟨op, ⟨i, -, hi⟩, -⟩
    have hw := ofWord?_toWord i
    rw [Word.bytes_inj hi] at hw
    rw [← List.append_nil (Word.bytes w)]
    exact ⟨2, i.cut, decode_bytes_eq_ok_iff.mpr ⟨rfl, hw⟩⟩

end Instruction

end Chip8
