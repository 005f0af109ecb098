/-
  The font is where it was put, unless a program writes over it.

  Nothing protects the font: it stands in memory like everything else, and a store whose I points into it
  goes through (`font_overwritten`).  But nothing else reaches it either.
  1. **One store** (`Deed.byte_eq_or_put`).  `Fx33` and `Fx55` put one byte at each of the addresses that
     they write (`Deed.bytePut`), and every other instruction leaves memory as it is.
  2. **A history** (`font_byte_after`).  No program is loaded into the font and a reset leaves memory
     alone, so a byte of it is what the last store that reached it put there, and what it was made with if
     none did.
  3. **Blocks.**  Where a whole block of the font is unwritten it is read as in a fresh memory
     (`slice_after`); the font and each of its glyphs are such blocks (`slice_fresh`).
-/
import Chip8.Proofs.Deeds
import Chip8.Proofs.Footprint

namespace Chip8

/-- The rows of a digit. -/
def glyph (digit : Nat) : List UInt8 := (font.drop (glyphSize * digit)).take glyphSize

/-- Where the rows of a digit begin. -/
def glyphStart (digit : Nat) : Nat := fontStart + glyphSize * digit

namespace Memory

/-- A fresh memory, as a list. -/
theorem toList_fresh : fresh.bytes.toList
    = List.replicate fontStart 0
      ++ (font ++ List.replicate (memorySize - fontStart - font.length) 0) := by
  simp [fresh]

/-- The font in a fresh memory, block by block. -/
theorem slice_fresh {start count : Nat} (h : start + count ≤ font.length) :
    fresh.slice (fontStart + start) (fontStart + start + count)
      = .ok ((font.drop start).take count) := by
  have hfont : fontStart + font.length ≤ memorySize := by decide
  rw [slice_add, length_fresh, if_pos (by omega), Array.toList_extract, List.extract_eq_take_drop,
    toList_fresh, Nat.add_sub_cancel_left, List.drop_append, List.length_replicate,
    Nat.add_sub_cancel_left, List.drop_of_length_le (by rw [List.length_replicate]; omega),
    List.nil_append, List.drop_append_of_le_length (by omega),
    List.take_append_of_le_length (by rw [List.length_drop]; omega)]

/-- A region that can be read is a block. -/
theorem region_eq_ok_iff {m : Memory} {r : Region} {block : List UInt8} :
    m.region r = .ok block ↔ m.slice r.start r.stop = .ok block := by
  have hle : r.start ≤ r.stop := by cases r <;> decide
  obtain ⟨count, hcount⟩ := Nat.exists_eq_add_of_le hle
  unfold region
  rw [hcount, slice_add]
  by_cases hin : r.start + count ≤ m.length
  · rw [if_pos hin, if_pos hin, Except.ok.injEq, Except.ok.injEq]
  · rw [if_neg hin, if_neg hin]
    exact ⟨nofun, nofun⟩

/-- A block begins with the byte at its address. -/
theorem byte_of_slice {m : Memory} {start stop : Nat} {b : UInt8} {block : List UInt8}
    (h : m.slice start stop = .ok block) (hb : block[0]? = some b) : m.bytes[start]? = some b := by
  unfold slice at h
  cases hcheck : m.check start stop with
  | error e =>
    rw [hcheck] at h
    cases h
  | ok done =>
    rw [hcheck] at h
    rw [← Except.ok.inj h, Array.getElem?_toList, Array.getElem?_extract] at hb
    split at hb
    · exact hb
    · cases hb

/-- The font in a fresh memory, byte by byte. -/
theorem font_fresh {k : Nat} (h : k < font.length) : fresh.bytes[fontStart + k]? = font[k]? := by
  have hbehind : (List.replicate fontStart (0 : UInt8)).length ≤ fontStart + k := by
    rw [List.length_replicate]
    exact Nat.le_add_right ..
  rw [← Array.getElem?_toList, toList_fresh, List.getElem?_append_right hbehind,
    List.length_replicate, Nat.add_sub_cancel_left, List.getElem?_append_left h]

end Memory

/-! ## One store -/

namespace Machine

variable {ρ : Type}

section Stores

variable [ByteSource ρ] {m n : Machine ρ} {x : Nat}

/-- What `Fx33` stores is the digits of a register. -/
theorem storeBlock_of_storeDecimal (h : m.perform (.storeDecimal x) = .done n) :
    ∃ hx : x < 16, m.storeBlock (decimalDigits (m.v.get ⟨x, hx⟩)) = .done n := by
  dsimp only [perform] at h
  exact exists_of_withRegister_done h

/-- What `Fx55` stores is the registers up to one. -/
theorem storeBlock_of_storeRegisters (h : m.perform (.storeRegisters x) = .done n) :
    ∃ hx : x < 16, m.storeBlock (m.registersUpTo ⟨x, hx⟩) = .done n := by
  dsimp only [perform] at h
  exact exists_of_withRegister_done h

end Stores

/-- A block that was stored has its bytes from I on, and the others are left. -/
theorem byte_of_storeBlock {m n : Machine ρ} {block : List UInt8} (h : m.storeBlock block = .done n)
    (a : Nat) : n.memory.bytes[a]?
      = (if m.index.toNat ≤ a then block[a - m.index.toNat]? else none).or m.memory.bytes[a]? := by
  rw [storeBlock_eq] at h
  by_cases hfit : m.index.toNat + block.length ≤ m.memory.length
  · rw [if_pos hfit] at h
    obtain rfl := Outcome.done.inj h
    have hsize : m.index.toNat + block.length ≤ m.memory.bytes.size := hfit
    show (Memory.overwrite m.memory.bytes m.index.toNat block)[a]? = _
    rw [Memory.getElem?_overwrite]
    by_cases hin : m.index.toNat ≤ a ∧ a < m.index.toNat + block.length
    · have hlt : a - m.index.toNat < block.length := by omega
      rw [if_pos ⟨hin.1, hin.2, by omega⟩, if_pos hin.1, List.getElem?_eq_getElem hlt, Option.some_or]
    · have hnone : (if m.index.toNat ≤ a then block[a - m.index.toNat]? else none) = none := by
        split
        next hle => exact List.getElem?_eq_none (by omega)
        next => rfl
      rw [if_neg fun h => hin ⟨h.1, h.2.1⟩, hnone, Option.none_or]
  · rw [if_neg hfit] at h
    cases h

end Machine

variable {ρ : Type} [ByteSource ρ]

namespace Deed

/-- The byte that a deed puts at an address — `Fx33` a decimal digit of vX and `Fx55` one of v0 to vX, and
nothing else puts one there. -/
def bytePut (a : Nat) (d : Deed ρ) : Option UInt8 :=
  let start := d.before.index.toNat
  match d.instruction with
  | .storeDecimal x =>
      if start ≤ a then
        d.before.v[x]?.bind fun b => [b / 100 % 10, b / 10 % 10, b % 10][a - start]?
      else none
  | .storeRegisters x => if start ≤ a ∧ a ≤ start + x then d.before.v[a - start]? else none
  | _ => none

/-- After a deed there is at each address what it put there, or else what was there before. -/
theorem byte_eq_or_put (d : Deed ρ) (a : Nat) :
    d.after.memory.bytes[a]? = (d.bytePut a).or d.before.memory.bytes[a]? := by
  obtain ⟨m, i, n, hdone⟩ := d
  cases i with
  | storeDecimal x =>
    obtain ⟨hx, hblock⟩ := Machine.storeBlock_of_storeDecimal hdone
    refine (Machine.byte_of_storeBlock hblock a).trans ?_
    show _ = (if m.index.toNat ≤ a then m.v[x]?.bind _ else none).or m.memory.bytes[a]?
    rw [Vector.getElem?_eq_getElem hx]
    rfl
  | storeRegisters x =>
    obtain ⟨hx, hblock⟩ := Machine.storeBlock_of_storeRegisters hdone
    refine (Machine.byte_of_storeBlock hblock a).trans ?_
    refine congrArg (fun b : Option UInt8 => b.or m.memory.bytes[a]?) ?_
    show _ = if m.index.toNat ≤ a ∧ a ≤ m.index.toNat + x then m.v[a - m.index.toNat]? else none
    by_cases hstart : m.index.toNat ≤ a
    · rw [if_pos hstart, Machine.registersUpTo, List.getElem?_take, Vector.getElem?_toList]
      by_cases hlast : a ≤ m.index.toNat + x
      · rw [if_pos (show a - m.index.toNat < x + 1 by omega), if_pos ⟨hstart, hlast⟩]
      · rw [if_neg (show ¬ a - m.index.toNat < x + 1 by omega), if_neg fun h => hlast h.2]
    · rw [if_neg hstart, if_neg fun h => hstart h.1]
  | _ => exact byte_eq ⟨m, _, n, hdone⟩ id

/-- A deed puts a byte where its instruction writes, and nowhere else. -/
theorem exists_bytePut_iff (d : Deed ρ) (a : Nat) :
    (∃ b, d.bytePut a = some b) ↔ d.instruction.Writes d.before (.byte a) := by
  obtain ⟨m, i, n, hdone⟩ := d
  cases i with
  | storeDecimal x =>
    obtain ⟨hx, -⟩ := Machine.storeBlock_of_storeDecimal hdone
    show (∃ b, (if m.index.toNat ≤ a then m.v[x]?.bind _ else none) = some b)
      ↔ m.index.toNat ≤ a ∧ a < m.index.toNat + 3
    rw [Vector.getElem?_eq_getElem hx, Option.bind_some]
    constructor
    · rintro ⟨b, hb⟩
      split at hb
      next hstart =>
        have hlt : a - m.index.toNat < 3 := (List.getElem?_eq_some_iff.mp hb).1
        exact ⟨hstart, by omega⟩
      next => cases hb
    · rintro ⟨hstart, hend⟩
      rw [if_pos hstart]
      exact ⟨_, List.getElem?_eq_getElem (show a - m.index.toNat < 3 by omega)⟩
  | storeRegisters x =>
    obtain ⟨hx, -⟩ := Machine.storeBlock_of_storeRegisters hdone
    show (∃ b, (if m.index.toNat ≤ a ∧ a ≤ m.index.toNat + x then m.v[a - m.index.toNat]?
      else none) = some b) ↔ m.index.toNat ≤ a ∧ a ≤ m.index.toNat + x
    constructor
    · rintro ⟨b, hb⟩
      split at hb
      next hin => exact hin
      next => cases hb
    · intro hin
      rw [if_pos hin]
      exact ⟨_, Vector.getElem?_eq_getElem (by omega)⟩
  | _ =>
    refine iff_of_false ?_ id
    rintro ⟨b, hb⟩
    cases hb

end Deed

namespace Machine

/-- **A byte of the font is what was last stored there**, and what it was made with if nothing was. -/
theorem font_byte_after (r : ρ) (history : List Operation) {k : Nat} (hk : k < font.length) :
    ((powerOn r).after history).memory.bytes[fontStart + k]?
      = (lastPut (Deed.bytePut (fontStart + k)) ((powerOn r).deeds history)).or font[k]? := by
  have hbelow : fontStart + font.length ≤ programStart := by decide
  have hlow : fontStart + k < programStart := by omega
  rw [← Memory.font_fresh hk]
  exact ((inner_byte hlow).leads_history (sized_powerOn r) history).eq_or_lastPut
    fun d => d.byte_eq_or_put (fontStart + k)

/-- A store that reaches into the font is carried out — its block ends long before memory does. -/
theorem executeWord_into_font {m : Machine ρ} (hm : m.Sized) {w : UInt16} {i : Instruction} {a : Nat}
    (hw : Instruction.ofWord? w = some i) (hwrites : i.Writes m (.byte a))
    (ha : a < Region.charset.stop) :
    ∃ d : Deed ρ, d.before = m ∧ d.instruction = i ∧ m.executeWord w = .done d.after := by
  have hlength : m.memory.length = 4096 := hm.memory
  have hstop : a < 160 := ha
  suffices hdone : ∃ n, m.perform i = .done n by
    obtain ⟨n, hdone⟩ := hdone
    refine ⟨⟨m, i, n, hdone⟩, rfl, rfl, ?_⟩
    rw [executeWord, hw]
    exact hdone
  have hx : i.operand .x < 16 := (Instruction.inRange_of_ofWord? hw).1
  cases i with
  | storeDecimal x =>
    obtain ⟨hstart, -⟩ : m.index.toNat ≤ a ∧ a < m.index.toNat + 3 := hwrites
    have hx : x < 16 := hx
    have hfit : m.index.toNat + (decimalDigits (m.v.get ⟨x, hx⟩)).length ≤ m.memory.length := by
      show m.index.toNat + 3 ≤ m.memory.length
      omega
    have hstore : m.perform (.storeDecimal x) = m.storeBlock (decimalDigits (m.v.get ⟨x, hx⟩)) := by
      dsimp only [perform]
      exact withRegister_of_lt hx _
    exact ⟨_, hstore.trans ((m.storeBlock_eq _).trans (if_pos hfit))⟩
  | storeRegisters x =>
    obtain ⟨hstart, -⟩ : m.index.toNat ≤ a ∧ a ≤ m.index.toNat + x := hwrites
    have hx : x < 16 := hx
    have hfit : m.index.toNat + (m.registersUpTo ⟨x, hx⟩).length ≤ m.memory.length := by
      rw [length_registersUpTo]
      show m.index.toNat + (x + 1) ≤ m.memory.length
      omega
    have hstore : m.perform (.storeRegisters x) = m.storeBlock (m.registersUpTo ⟨x, hx⟩) := by
      dsimp only [perform]
      exact withRegister_of_lt hx _
    exact ⟨_, hstore.trans ((m.storeBlock_eq _).trans (if_pos hfit))⟩
  | _ => exact hwrites.elim

/-! ## Blocks -/

/-- A block of the font that no instruction has written is read as in a fresh memory. -/
theorem slice_after (r : ρ) {history : List Operation} (start count : Nat)
    (hin : start + count ≤ font.length)
    (h : ∀ d ∈ (powerOn r).deeds history, ∀ k < count,
      ¬ d.instruction.Writes d.before (.byte (fontStart + start + k))) :
    ((powerOn r).after history).memory.slice (fontStart + start) (fontStart + start + count)
      = .ok ((font.drop start).take count) := by
  have hpower : (powerOn r).Sized := sized_powerOn r
  have hsized : ((powerOn r).after history).Sized := Reachable.sized ⟨r, history, rfl⟩
  have hbelow : fontStart + font.length ≤ programStart := by decide
  rw [← Memory.slice_fresh hin]
  refine Memory.slice_congr (hsized.memory.trans Memory.length_fresh.symm) fun _ a hfrom hto => ?_
  obtain ⟨k, rfl⟩ := Nat.exists_eq_add_of_le hfrom
  exact byte_after hpower (by omega) fun d hd => h d hd k (by omega)

/-- Pointing I at a digit finds its rows. -/
theorem executeWord_pointGlyph {m : Machine ρ} {w : UInt16} {x : Nat} {digit : UInt8}
    (hw : Instruction.ofWord? w = some (.pointGlyph x)) (hx : m.v[x]? = some digit)
    (hdigit : digit ≤ 15) :
    ∃ n, m.executeWord w = .done n ∧ n.index.toNat = glyphStart digit.toNat
      ∧ n.memory = m.memory := by
  have hregister : x < 16 := (Instruction.inRange_of_ofWord? hw).1
  have hv : m.v.get ⟨x, hregister⟩ = digit :=
    Option.some.inj ((Vector.getElem?_eq_getElem hregister).symm.trans hx)
  have hsmall : digit.toNat ≤ 15 := UInt8.le_iff_toNat_le.mp hdigit
  have hfont : fontStart = 80 := rfl
  have hglyph : glyphSize = 5 := rfl
  refine ⟨{ m with index := UInt16.ofNat (glyphStart digit.toNat) }, ?_, ?_, rfl⟩
  · rw [executeWord, hw]
    dsimp only [perform]
    rw [withRegister_of_lt hregister, hv]
    rfl
  · show (UInt16.ofNat (glyphStart digit.toNat)).toNat = _
    rw [UInt16.toNat_ofNat', glyphStart, hfont, hglyph]
    omega

/-- **The font is where it was put, unless a program writes over it.**  After any history since power-on,
    * a block of the font that none of the instructions carried out has written holds what it was made
      with;
    * so the whole font is as it was made if none of them wrote into it;
    * a machine that is told to point I at a digit does so, and five bytes that none of them wrote are
      the rows of that digit;
    * a store that reaches into the font is carried out, and puts its bytes over those of the font;
    * and that is all: what an instruction puts somewhere stands there after it, the two stores put
      something at the addresses that they write and no instruction does elsewhere, and each byte of
      the font is what was last put there, or what it was made with if nothing was. -/
theorem font_kept (r : ρ) (history : List Operation) :
    let log := (powerOn r).deeds history
    let m := (powerOn r).after history
    (∀ start count, start + count ≤ font.length →
      (∀ d ∈ log, ∀ k < count, ¬ d.instruction.Writes d.before (.byte (fontStart + start + k))) →
      m.memory.slice (fontStart + start) (fontStart + start + count)
        = .ok ((font.drop start).take count))
    ∧ ((∀ d ∈ log, ∀ a, Region.charset.start ≤ a → a < Region.charset.stop →
        ¬ d.instruction.Writes d.before (.byte a)) →
      m.memory.region .charset = .ok font)
    ∧ (∀ (w : UInt16) (x : Nat) (digit : UInt8), Instruction.ofWord? w = some (.pointGlyph x) →
      m.v[x]? = some digit → digit ≤ 15 →
      ∃ n, m.executeWord w = .done n ∧ n.index.toNat = glyphStart digit.toNat
        ∧ ((∀ d ∈ log, ∀ k < glyphSize,
            ¬ d.instruction.Writes d.before (.byte (glyphStart digit.toNat + k))) →
          n.memory.slice n.index.toNat (n.index.toNat + glyphSize) = .ok (glyph digit.toNat)))
    ∧ (∀ (w : UInt16) (i : Instruction) (a : Nat), Instruction.ofWord? w = some i →
      i.Writes m (.byte a) → a < Region.charset.stop →
      ∃ d : Deed ρ, d.before = m ∧ d.instruction = i ∧ m.executeWord w = .done d.after
        ∧ ∃ b, d.bytePut a = some b ∧ d.after.memory.bytes[a]? = some b)
    ∧ (∀ (d : Deed ρ) (a : Nat),
      ((∃ b, d.bytePut a = some b) ↔ d.instruction.Writes d.before (.byte a))
      ∧ d.after.memory.bytes[a]? = (d.bytePut a).or d.before.memory.bytes[a]?)
    ∧ ∀ k < font.length, m.memory.bytes[fontStart + k]?
      = (lastPut (Deed.bytePut (fontStart + k)) log).or font[k]? := by
  intro log m
  refine ⟨fun start count hin h => slice_after r start count hin h, fun h => ?_, ?_, ?_,
    fun d a => ⟨d.exists_bytePut_iff a, d.byte_eq_or_put a⟩, fun k hk => font_byte_after r history hk⟩
  · refine Memory.region_eq_ok_iff.mpr ?_
    have hall := slice_after r 0 font.length (Nat.le_of_eq (Nat.zero_add font.length))
      fun d hd k hk => h d hd (fontStart + k) (Nat.le_add_right ..) (Nat.add_lt_add_left hk _)
    rwa [List.drop_zero, List.take_length] at hall
  · intro w x digit hw hx hdigit
    obtain ⟨n, hdone, hindex, hmemory⟩ := executeWord_pointGlyph hw hx hdigit
    refine ⟨n, hdone, hindex, fun h => ?_⟩
    have hin : glyphSize * digit.toNat + glyphSize ≤ font.length := by
      have hsmall : digit.toNat ≤ 15 := UInt8.le_iff_toNat_le.mp hdigit
      show 5 * digit.toNat + 5 ≤ 80
      omega
    -- Pointing at the digit has left memory alone, so its rows are still those of the machine before.
    rw [hindex, hmemory]
    exact slice_after r _ _ hin h
  · intro w i a hw hwrites ha
    have hm : m.Sized := Reachable.sized ⟨r, history, rfl⟩
    obtain ⟨d, hbefore, rfl, hdone⟩ := executeWord_into_font hm hw hwrites ha
    obtain ⟨b, hput⟩ := (d.exists_bytePut_iff a).mpr (hbefore ▸ hwrites)
    have hbyte := d.byte_eq_or_put a
    rw [hput, Option.some_or] at hbyte
    exact ⟨d, hbefore, rfl, hdone, b, hput, hbyte⟩

/-- A store just behind the font, and then I is pointed at the last digit. -/
theorem font_kept_behind :
    let history : List Operation := [.setRegister 0 15, .executeWord 0xa0a0, .executeWord 0xf055]
    let log := (powerOn (Stepper.mk 0 1)).deeds history
    let m := (powerOn (Stepper.mk 0 1)).after history
    log.map (·.instruction) = [.setIndex 0xa0, .storeRegisters 0]
    ∧ (∀ d ∈ log, ∀ a, Region.charset.start ≤ a → a < Region.charset.stop →
      ¬ d.instruction.Writes d.before (.byte a))
    ∧ m.memory.bytes[0xa0]? = some 15 ∧ m.memory.region .charset = .ok font
    ∧ ∃ n, m.executeWord 0xf029 = .done n ∧ n.index.toNat = 0x9b
      ∧ n.memory.slice 0x9b 0xa0 = .ok [0xf0, 0x80, 0xf0, 0x80, 0x80] := by
  dsimp only
  obtain ⟨hinstructions, hwritten, hbyte, hv, -⟩ := storing_at (sized_powerOn (Stepper.mk 0 1)) 15
    (w := 0xa0a0) (by decide) (by decide : (0xa0 : UInt16).toNat = 0xa0) (by decide)
  obtain ⟨-, hregion, hpoint, -⟩ := font_kept (Stepper.mk 0 1)
    [.setRegister 0 15, .executeWord 0xa0a0, .executeWord 0xf055]
  obtain ⟨n, hdone, hindex, hrows⟩ := hpoint 0xf029 0 15 (by decide) hv (by decide)
  have hstart : glyphStart (15 : UInt8).toNat = 0x9b := by decide
  rw [hstart] at hindex hrows
  rw [hindex] at hrows
  have hbelow : ∀ d : Deed Stepper, d ∈ _ → ∀ a < 0xa0, ¬ d.instruction.Writes d.before (.byte a) :=
    fun d hd a ha hwrites => Nat.ne_of_lt ha (hwritten d hd a hwrites)
  exact ⟨hinstructions, fun d hd a _ => hbelow d hd a, hbyte, hregion fun d hd a _ => hbelow d hd a,
    n, hdone, hindex, hrows fun d hd k hk => hbelow d hd _ (Nat.add_lt_add_left hk 0x9b)⟩

/-- **Nothing protects the font.**  With I at the font `f055` puts v0 over the first row of the digit 0,
and `f029` points I at what is left of it. -/
theorem font_overwritten :
    let history : List Operation := [.setRegister 0 0, .executeWord 0xa050, .executeWord 0xf055]
    let m := (powerOn (Stepper.mk 0 1)).after history
    m.Reachable ∧ m.memory.region .charset ≠ .ok font
    ∧ m.v[0]? = some 0 ∧ ∃ n, m.executeWord 0xf029 = .done n ∧ n.index.toNat = glyphStart 0
      ∧ n.memory.slice n.index.toNat (n.index.toNat + glyphSize) ≠ .ok (glyph 0) := by
  dsimp only
  obtain ⟨-, -, hbyte, hv, -⟩ := storing_at (sized_powerOn (Stepper.mk 0 1)) 0 (w := 0xa050)
    (by decide) (by decide : (0x50 : UInt16).toNat = fontStart) (by decide)
  obtain ⟨n, hdone, hindex, hmemory⟩ :=
    executeWord_pointGlyph (w := 0xf029) (by decide) hv (by decide)
  -- Neither the font nor the digit begins with a row that is out.
  refine ⟨⟨Stepper.mk 0 1, _, rfl⟩, fun hfont => ?_, hv, n, hdone, hindex, fun hglyph => ?_⟩
  · have hfirst := Memory.byte_of_slice (b := 0xf0) (Memory.region_eq_ok_iff.mp hfont) rfl
    exact absurd (Option.some.inj (hbyte.symm.trans hfirst)) (by decide)
  · rw [hindex, hmemory] at hglyph
    have hfirst := Memory.byte_of_slice (b := 0xf0) hglyph rfl
    exact absurd (Option.some.inj (hbyte.symm.trans hfirst)) (by decide)

end Machine

end Chip8
