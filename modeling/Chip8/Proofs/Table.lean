/-
  The instruction table.

  `Machine.executeWord` finds the one format a word has and carries out the instruction of that format.
  The table below says the same thing the way a manual does: a dispatch on the leading digit, and within
  the digits 0, 5, 9 and F a second one on the rest, with the fields of the raw word as operands.

  1. **Rows say what is there afterwards, not how it gets there.**  A register holds its new number and
     the others what they held (`Machine.Puts`), a store is a memory that has the bytes in their place
     and is otherwise as before (`Memory.Stored`), a call a stack whose live frames are one longer
     (`CallStack.Pushed`), the decimal digits are digits that add up to the value.  What a row does not
     mention is as it was.
  2. **The fields of the row are the operands.**  The leading digits of a word decide its format
     (`executeWord_of_digits`), and a word that no row is for has none (`unlisted_iff`).
  3. The table covers the words whose leading digit is neither 8 nor D; arithmetic and drawing have
     laws of their own.  For every other word it is exact (`table_exact`): what happens is what the row
     says, and nothing else is.
-/
import Chip8.Proofs.Sized

namespace Chip8

/-! ## Fields of the raw word -/

namespace Word

theorem x_lt (w : UInt16) : x w < 16 := by
  rw [x_eq]
  exact Nat.mod_lt _ (by decide)

theorem y_lt (w : UInt16) : y w < 16 := by
  rw [y_eq]
  exact Nat.mod_lt _ (by decide)

/-- The register that the second digit names. -/
def regX (w : UInt16) : Fin 16 := ⟨x w, x_lt w⟩

/-- The register that the third digit names. -/
def regY (w : UInt16) : Fin 16 := ⟨y w, y_lt w⟩

/-- The last two digits are those of the low byte. -/
theorem digits_nn (w : UInt16) :
    digits w = [(group w).toNat, x w, (nn w).toNat / 16, (nn w).toNat % 16] := by
  have hy : y w = (nn w).toNat / 16 := by
    rw [y_eq, toNat_nn]
    omega
  have hn : (n w).toNat = (nn w).toNat % 16 := by
    rw [toNat_n, toNat_nn]
    omega
  rw [digits_eq, hy, hn]

/-- The last three digits are those of the low three. -/
theorem digits_nnn (w : UInt16) : digits w
    = [(group w).toNat, (nnn w).toNat / 256, (nnn w).toNat / 16 % 16, (nnn w).toNat % 16] := by
  have hx : x w = (nnn w).toNat / 256 := by
    rw [x_eq, toNat_nnn]
    omega
  have hy : y w = (nnn w).toNat / 16 % 16 := by
    rw [y_eq, toNat_nnn]
    omega
  have hn : (n w).toNat = (nnn w).toNat % 16 := by
    rw [toNat_n, toNat_nnn]
    omega
  rw [digits_eq, hx, hy, hn]

end Word

/-! ## What a row leaves behind -/

/-- A memory is another one with a block stored in it. -/
structure Memory.Stored (old : Memory) (start : Nat) (block : List UInt8) (new : Memory) : Prop where
  length : new.length = old.length
  inside : ∀ k < block.length, new.bytes[start + k]? = block[k]?
  outside : ∀ k, k < start ∨ start + block.length ≤ k → new.bytes[k]? = old.bytes[k]?

/-- There is one such memory, as long as the block fits. -/
theorem Memory.stored_iff {old new : Memory} {start : Nat} {block : List UInt8}
    (hfit : start + block.length ≤ old.length) :
    old.Stored start block new ↔ new = old.splice start block := by
  have hsplice : ∀ k, (old.splice start block).bytes[k]? = if start ≤ k ∧ k < start + block.length
      then block[k - start]? else old.bytes[k]? := by
    intro k
    have hfit : start + block.length ≤ old.bytes.size := hfit
    show (overwrite old.bytes start block)[k]? = _
    rw [getElem?_overwrite]
    by_cases hk : start ≤ k ∧ k < start + block.length
    · rw [if_pos hk, if_pos (by omega)]
    · rw [if_neg hk, if_neg (by omega)]
  constructor
  · rintro ⟨-, hinside, houtside⟩
    refine congrArg Memory.mk (Array.ext_getElem? fun k => ?_)
    show new.bytes[k]? = (old.splice start block).bytes[k]?
    rw [hsplice]
    by_cases hk : start ≤ k ∧ k < start + block.length
    · have hat := hinside (k - start) (by omega)
      rw [Nat.add_sub_cancel' hk.1] at hat
      rw [if_pos hk, hat]
    · rw [if_neg hk, houtside k (by omega)]
  · rintro rfl
    refine ⟨length_splice .., fun k hk => ?_, fun k hk => ?_⟩
    · rw [hsplice, if_pos (by omega), Nat.add_sub_cancel_left]
    · rw [hsplice, if_neg (by omega)]

namespace CallStack

/-- A stack is another one with an address put on top. -/
structure Pushed (s : CallStack) (address : UInt16) (t : CallStack) : Prop where
  live : t.live = s.live ++ [address]
  depth : t.depth = s.depth + 1
  stale : ∀ k (hk : k < stackDepth), k ≠ s.depth → t.frames[k] = s.frames[k]

/-- A stack is another one with an address taken off the top. -/
structure Popped (s : CallStack) (address : UInt16) (t : CallStack) : Prop where
  live : s.live = t.live ++ [address]
  depth : s.depth = t.depth + 1
  frames : t.frames = s.frames

/-- There is one such stack, as long as there is room. -/
theorem pushed_iff {s t : CallStack} {address : UInt16} (hs : s.depth < stackDepth) :
    s.Pushed address t ↔ t = ⟨s.frames.set s.depth address hs, s.depth + 1⟩ := by
  have hpush : s.push address = some ⟨s.frames.set s.depth address hs, s.depth + 1⟩ := dif_pos hs
  constructor
  · rintro ⟨hlive, hdepth, hstale⟩
    obtain ⟨frames, depth⟩ := t
    dsimp only at hdepth hstale
    subst hdepth
    congr
    refine Vector.ext fun k hk => ?_
    by_cases hkd : k = s.depth
    · -- The newest frame is the last element of the live list.
      subst hkd
      have hlast := congrArg (·[s.depth]?) (hlive.trans (live_push hpush).symm)
      simpa [live, hs] using hlast
    · rw [hstale k hk hkd, Vector.getElem_set_ne hs hk (Ne.symm hkd)]
  · rintro rfl
    exact ⟨live_push hpush, rfl, fun k hk hkd => Vector.getElem_set_ne hs hk (Ne.symm hkd)⟩

/-- And one of these, as long as there is a frame to take off. -/
theorem popped_iff {s t : CallStack} {address : UInt16} (hs : 0 < s.depth)
    (hdepth : s.depth ≤ stackDepth) :
    s.Popped address t ↔ t = ⟨s.frames, s.depth - 1⟩ ∧ address = s.frames[s.depth - 1] := by
  have hpop : s.pop = (.ok (some s.frames[s.depth - 1]), ⟨s.frames, s.depth - 1⟩) := by
    rw [pop_eq hdepth, dif_pos hs]
  constructor
  · rintro ⟨hlive, hcount, hframes⟩
    obtain rfl : t = ⟨s.frames, s.depth - 1⟩ := by
      obtain ⟨frames, depth⟩ := t
      dsimp only at hcount hframes
      rw [hframes, hcount, Nat.add_sub_cancel]
    have hlast := List.append_cancel_left (hlive.symm.trans (live_pop hpop))
    exact ⟨rfl, List.head_eq_of_cons_eq hlast⟩
  · rintro ⟨rfl, rfl⟩
    exact ⟨live_pop hpop, (Nat.succ_pred_eq_of_pos hs).symm, rfl⟩

end CallStack

/-- A screen with all of its pixels, and none of them lit. -/
structure Screen.Dark (s : Screen) : Prop where
  size : s.pixels.size = 2048
  dark : ∀ k < 2048, s.pixels[k]? = some false

/-- There is one such screen, the blank one. -/
theorem Screen.dark_iff {s : Screen} : s.Dark ↔ s = .blank := by
  have hblank : ∀ k < 2048, Screen.blank.pixels[k]? = some false := by
    intro k hk
    show (Array.replicate 2048 false)[k]? = some false
    rw [Array.getElem?_replicate, if_pos hk]
  constructor
  · rintro ⟨hsize, hdark⟩
    have hsame : s.pixels.size = Screen.blank.pixels.size := hsize.trans size_blank.symm
    refine congrArg Screen.mk (Array.ext hsame fun k hk hk' => ?_)
    have hlt : k < 2048 := hsize ▸ hk
    apply Option.some.inj
    rw [← Array.getElem?_eq_getElem hk, ← Array.getElem?_eq_getElem hk']
    exact (hdark k hlt).trans (hblank k hlt).symm
  · rintro rfl
    exact ⟨size_blank, hblank⟩

namespace Machine

variable {ρ : Type}

/-- Registers are the same if each of them is. -/
theorem registers_ext {v u : Vector UInt8 16} (h : ∀ r : Fin 16, v.get r = u.get r) : v = u :=
  Vector.ext fun k hk => h ⟨k, hk⟩

/-- Afterwards vX holds a number, and nothing else is changed. -/
def Puts (m : Machine ρ) (x : Fin 16) (value : Nat) (o : Outcome (Machine ρ)) : Prop :=
  ∃ n, o = .done n ∧ (n.v.get x).toNat = value ∧ (∀ r, r ≠ x → n.v.get r = m.v.get r)
    ∧ n = { m with v := n.v }

/-- Putting a byte into a register and nothing else is what `setV` does. -/
theorem puts_iff {m : Machine ρ} {o : Outcome (Machine ρ)} {x : Fin 16} {value : Nat} {b : UInt8}
    (hb : b.toNat = value) : Outcome.done (m.setV x b) = o ↔ m.Puts x value o := by
  subst hb
  constructor
  · rintro rfl
    refine ⟨_, rfl, ?_, fun r hr => ?_, rfl⟩
    · rw [get_setV, if_pos rfl]
    · rw [get_setV, if_neg hr]
  · rintro ⟨n, rfl, hx, hothers, hrest⟩
    have hv : n.v = (m.setV x b).v := by
      refine registers_ext fun r => ?_
      rw [get_setV]
      by_cases hr : r = x
      · rw [if_pos hr, hr]
        exact UInt8.toNat_inj.mp hx
      · rw [if_neg hr, hothers r hr]
    rw [hrest, hv]
    rfl

/-- Registers are others with bytes from an address on loaded into them, up to a register. -/
structure Loaded (memory : Memory) (start : Nat) (x : Fin 16) (old new : Vector UInt8 16) : Prop where
  loaded : ∀ r ≤ x, memory.bytes[start + r]? = some (new.get r)
  kept : ∀ r, x < r → new.get r = old.get r

/-- There are such registers, as long as the bytes are in memory, and only one choice of them. -/
theorem loaded_iff {memory : Memory} {start : Nat} {x : Fin 16} {old new : Vector UInt8 16}
    (hfit : start + x + 1 ≤ memory.length) : Loaded memory start x old new
      ↔ new = overwriteRegisters old (memory.bytes.extract start (start + x + 1)).toList := by
  have hfit : start + x + 1 ≤ memory.bytes.size := hfit
  have hread : ∀ r : Fin 16, (memory.bytes.extract start (start + x + 1)).toList[r.val]?
      = if r ≤ x then memory.bytes[start + r]? else none := by
    intro r
    rw [Array.getElem?_toList, Array.getElem?_extract, Nat.min_eq_left hfit]
    by_cases hr : r ≤ x
    · rw [if_pos (by omega), if_pos hr]
    · rw [if_neg (by omega), if_neg hr]
  have hwrite : ∀ r : Fin 16,
      (overwriteRegisters old (memory.bytes.extract start (start + x + 1)).toList).get r
        = (if r ≤ x then memory.bytes[start + r]? else none).getD (old.get r) := by
    intro r
    rw [← hread]
    exact Vector.getElem_ofFn ..
  constructor
  · rintro ⟨hloaded, hkept⟩
    refine registers_ext fun r => ?_
    rw [hwrite]
    by_cases hr : r ≤ x
    · rw [if_pos hr, hloaded r hr]
      rfl
    · rw [if_neg hr, hkept r (Fin.not_le.mp hr)]
      rfl
  · rintro rfl
    refine ⟨fun r hr => ?_, fun r hr => ?_⟩
    · have hin : start + r < memory.bytes.size := by omega
      rw [hwrite, if_pos hr, Array.getElem?_eq_getElem hin]
      rfl
    · rw [hwrite, if_neg (Fin.not_le.mpr hr)]
      rfl

/-- Three decimal digits that make up a byte. -/
structure IsDecimal (hundreds tens ones b : UInt8) : Prop where
  hundreds_lt : hundreds < 10
  tens_lt : tens < 10
  ones_lt : ones < 10
  value : 100 * hundreds.toNat + 10 * tens.toNat + ones.toNat = b.toNat

/-- A byte has one such triple, its decimal digits. -/
theorem isDecimal_iff {h t u b : UInt8} : IsDecimal h t u b ↔ [h, t, u] = decimalDigits b := by
  have hb := b.toNat_lt
  simp only [decimalDigits, List.cons.injEq, and_true, ← UInt8.toNat_inj, UInt8.toNat_mod,
    UInt8.toNat_div]
  constructor
  · rintro ⟨hh, ht, hu, hvalue⟩
    rw [UInt8.lt_iff_toNat_lt] at hh ht hu
    simp only [UInt8.reduceToNat] at *
    omega
  · rintro ⟨hh, ht, hu⟩
    simp only [UInt8.reduceToNat] at *
    refine ⟨?_, ?_, ?_, by omega⟩ <;> rw [UInt8.lt_iff_toNat_lt] <;>
      simp only [UInt8.reduceToNat] <;> omega

/-! ## The table -/

/-- The next instruction is skipped exactly if the condition holds. -/
structure Skips (m : Machine ρ) (condition : Prop) (o : Outcome (Machine ρ)) : Prop where
  skipped : condition → o = .done { m with pc := UInt16.ofNat ((m.pc.toNat + 2) % 65536) }
  taken : ¬ condition → o = .done m

/-- The word is reported as unknown. -/
def Unlisted (m : Machine ρ) (w : UInt16) (o : Outcome (Machine ρ)) : Prop :=
  o = .failed (.error (.unimplemented w)) m

/-- Some bytes at I are used if all of them are in memory; else the first that is not is reported. -/
def Reaching (m : Machine ρ) (count : Nat) (used : Prop) (o : Outcome (Machine ρ)) : Prop :=
  if m.index.toNat + count ≤ 4096 then used
  else o = .failed (.error (.invalidAddress (max m.index.toNat 4096))) m

/-- Rows of the leading digit 0. -/
def ZeroRow (m : Machine ρ) (w : UInt16) (o : Outcome (Machine ρ)) : Prop :=
  match (Word.nnn w).toNat with
  | 0x0e0 => ∃ screen : Screen, screen.Dark ∧ o = .done { m with screen := screen }
  | 0x0ee =>
      if m.stack.live = [] then o = .failed (.error (.stackUnderflow m.pc)) m
      else ∃ address stack, m.stack.Popped address stack
        ∧ o = .done { m with stack := stack, pc := address }
  | _ => m.Unlisted w o

/-- Rows of the leading digit F. -/
def PortRow (m : Machine ρ) (w : UInt16) (o : Outcome (Machine ρ)) : Prop :=
  let x := Word.regX w
  match (Word.nn w).toNat with
  | 0x07 => m.Puts x m.delay.toNat o
  | 0x15 => o = .done { m with delay := m.v.get x }
  | 0x18 => o = .done { m with sound := m.v.get x }
  | 0x1e => o = .done { m with index := UInt16.ofNat ((m.index.toNat + (m.v.get x).toNat) % 65536) }
  | 0x29 => o = .done { m with index := UInt16.ofNat (0x50 + 5 * (m.v.get x).toNat) }
  | 0x33 => m.Reaching 3 (∃ h t u memory, IsDecimal h t u (m.v.get x)
      ∧ m.memory.Stored m.index.toNat [h, t, u] memory ∧ o = .done { m with memory := memory }) o
  | 0x55 => m.Reaching (x + 1) (∃ memory,
      m.memory.Stored m.index.toNat (m.v.toList.take (x + 1)) memory
      ∧ o = .done { m with memory := memory }) o
  | 0x65 => m.Reaching (x + 1) (∃ v, Loaded m.memory m.index.toNat x m.v v
      ∧ o = .done { m with v := v }) o
  | _ => m.Unlisted w o

/-- The row of a word — how carrying it out on a machine ends. -/
def Row [ByteSource ρ] (m : Machine ρ) (w : UInt16) (o : Outcome (Machine ρ)) : Prop :=
  let x := Word.regX w
  let y := Word.regY w
  match (Word.group w).toNat with
  | 0x0 => m.ZeroRow w o
  | 0x1 => o = .done { m with pc := Word.nnn w }
  | 0x2 =>
      if m.stack.live.length < 16 then ∃ stack, m.stack.Pushed m.pc stack
        ∧ o = .done { m with stack := stack, pc := Word.nnn w }
      else o = .failed (.error (.stackOverflow m.pc 16)) m
  | 0x3 => m.Skips (m.v.get x = Word.nn w) o
  | 0x4 => m.Skips (m.v.get x ≠ Word.nn w) o
  | 0x5 => if Word.n w = 0 then m.Skips (m.v.get x = m.v.get y) o else m.Unlisted w o
  | 0x6 => m.Puts x (Word.nn w).toNat o
  | 0x7 => m.Puts x (((m.v.get x).toNat + (Word.nn w).toNat) % 256) o
  | 0x9 => if Word.n w = 0 then m.Skips (m.v.get x ≠ m.v.get y) o else m.Unlisted w o
  | 0xa => o = .done { m with index := Word.nnn w }
  | 0xb => ∃ first, m.v[0]? = some first
      ∧ o = .done { m with pc := UInt16.ofNat ((Word.nnn w).toNat + first.toNat) }
  | 0xc => Puts { m with random := (ByteSource.next m.random).2 } x
      ((ByteSource.next m.random).1.toNat &&& (Word.nn w).toNat) o
  | 0xf => m.PortRow w o
  | _ => m.Unlisted w o

/-! ## Finding the row -/

/-- There is one outcome, and it is known. -/
theorem ends_iff {o p q : Outcome (Machine ρ)} (h : p = q) : p = o ↔ o = q := by
  rw [h]
  exact eq_comm

section Finding

variable [ByteSource ρ]

/-- A word is carried out by the opcode whose format it has, with its own fields as operands. -/
theorem executeWord_of_digits (m : Machine ρ) {w : UInt16} (op : Opcode) {digits : List Nat}
    (hdigits : Word.digits w = digits) (hfit : op.format.accepts digits = true) :
    m.executeWord w = m.perform (op.instruction (Word.field w)) := by
  subst hdigits
  unfold executeWord
  rw [Instruction.ofWord?_of_accepts hfit]

/-- The leading digit may be enough to know the format. -/
theorem executeWord_of_group (m : Machine ρ) {w : UInt16} (op : Opcode) {d : Nat}
    (hg : (Word.group w).toNat = d)
    (hfit : op.format.accepts [d, Word.x w, Word.y w, (Word.n w).toNat] = true) :
    m.executeWord w = m.perform (op.instruction (Word.field w)) := by
  have hdigits := Word.digits_eq w
  rw [hg] at hdigits
  exact executeWord_of_digits m op hdigits hfit

/-- The leading digit and the low byte may be enough to know the format. -/
theorem executeWord_of_group_nn (m : Machine ρ) {w : UInt16} (op : Opcode) {d low : Nat}
    (hg : (Word.group w).toNat = d) (hnn : (Word.nn w).toNat = low)
    (hfit : op.format.accepts [d, Word.x w, low / 16, low % 16] = true) :
    m.executeWord w = m.perform (op.instruction (Word.field w)) := by
  have hdigits := Word.digits_nn w
  rw [hg, hnn] at hdigits
  exact executeWord_of_digits m op hdigits hfit

/-- A word without a format is reported. -/
theorem unlisted_iff {m : Machine ρ} {w : UInt16} {o : Outcome (Machine ρ)}
    (hnone : ∀ op : Opcode, op.format.accepts (Word.digits w) = false) :
    m.executeWord w = o ↔ m.Unlisted w o := by
  refine ends_iff ?_
  unfold executeWord
  rw [Instruction.ofWord?_eq_none_iff.mpr hnone]

end Finding

/-- A condition that was computed is the condition of the row. -/
theorem skips_iff {m : Machine ρ} {condition : Prop} {b : Bool} (hb : b = true ↔ condition)
    {o : Outcome (Machine ρ)} : Outcome.done (m.skipWhen b) = o ↔ m.Skips condition o := by
  have hpc : UInt16.ofNat ((m.pc.toNat + 2) % 65536) = m.pc + 2 := by
    apply UInt16.toNat_inj.mp
    simp
  have hskip : condition → m.skipWhen b = { m with pc := m.pc + 2 } := by
    intro h
    rw [skipWhen, if_pos (hb.mpr h)]
  have htake : ¬ condition → m.skipWhen b = m := by
    intro h
    rw [skipWhen, if_neg fun h' => h (hb.mp h')]
  constructor
  · rintro rfl
    refine ⟨fun h => ?_, fun h => ?_⟩
    · rw [hskip h, hpc]
    · rw [htake h]
  · rintro ⟨hskipped, htaken⟩
    by_cases h : condition
    · rw [hskip h, hskipped h, hpc]
    · rw [htake h, htaken h]

/-! ## Every row is exact -/

section Exact

variable {m : Machine ρ} {w : UInt16} {o : Outcome (Machine ρ)}

/-- Turning off all pixels of a screen of full size. -/
theorem clear_eq_blank {s : Screen} (hs : s.pixels.size = Screen.width * Screen.height) :
    s.clear = .blank := by
  refine congrArg Screen.mk (Array.ext (by simp [hs]) fun k _ _ => ?_)
  simp

/-- A return pops the live frames. -/
theorem returnFromCall_iff (hm : m.Sized) : m.returnFromCall = o ↔
    if m.stack.live = [] then o = .failed (.error (.stackUnderflow m.pc)) m
    else ∃ address stack, m.stack.Popped address stack
      ∧ o = .done { m with stack := stack, pc := address } := by
  have hlength := m.stack.length_live
  have hstack := hm.stack
  have hempty : m.stack.live = [] ↔ ¬ 0 < m.stack.depth := by
    rw [← List.length_eq_zero_iff, hlength]
    simp only [stackDepth]
    omega
  unfold returnFromCall
  rw [CallStack.pop_eq hstack]
  by_cases hd : 0 < m.stack.depth
  · rw [dif_pos hd, if_neg (fun h => hempty.mp h hd)]
    constructor
    · rintro rfl
      exact ⟨_, _, (CallStack.popped_iff hd hstack).mpr ⟨rfl, rfl⟩, rfl⟩
    · rintro ⟨address, stack, hpopped, rfl⟩
      obtain ⟨rfl, rfl⟩ := (CallStack.popped_iff hd hstack).mp hpopped
      rfl
  · rw [dif_neg hd, if_pos (hempty.mpr hd)]
    exact eq_comm

/-- A call pushes onto the live frames. -/
theorem call_iff (hm : m.Sized) {a : UInt16} : m.call a = o ↔
    if m.stack.live.length < 16 then ∃ stack, m.stack.Pushed m.pc stack
      ∧ o = .done { m with stack := stack, pc := a }
    else o = .failed (.error (.stackOverflow m.pc 16)) m := by
  have hlength := m.stack.length_live
  have hstack := hm.stack
  have hroom : m.stack.live.length < 16 ↔ m.stack.depth < stackDepth := by
    rw [hlength]
    simp only [stackDepth]
    omega
  unfold call CallStack.push
  by_cases hd : m.stack.depth < stackDepth
  · rw [dif_pos hd, if_pos (hroom.mpr hd)]
    constructor
    · rintro rfl
      exact ⟨_, (CallStack.pushed_iff hd).mpr rfl, rfl⟩
    · rintro ⟨stack, hpushed, rfl⟩
      rw [(CallStack.pushed_iff hd).mp hpushed]
  · rw [dif_neg hd, if_neg (fun h => hd (hroom.mp h))]
    exact eq_comm

/-- A store reaches as many bytes as the block has, whatever the row says of the memory it leaves. -/
theorem storeBlock_iff (hm : m.Sized) {block : List UInt8} {count : Nat}
    (hcount : block.length = count) {used : Prop}
    (hused : m.index.toNat + block.length ≤ m.memory.length →
      (used ↔ o = .done { m with memory := m.memory.splice m.index.toNat block })) :
    m.storeBlock block = o ↔ m.Reaching count used o := by
  subst hcount
  unfold Reaching
  rw [storeBlock_eq, show 4096 = m.memory.length from hm.memory.symm]
  by_cases hfit : m.index.toNat + block.length ≤ m.memory.length
  · rw [if_pos hfit, if_pos hfit, hused hfit]
    exact eq_comm
  · rw [if_neg hfit, if_neg hfit]
    exact eq_comm

/-- A load reaches as many bytes as there are registers up to vX. -/
theorem loadRegisters_iff (hm : m.Sized) {x : Fin 16} : m.loadRegisters x = o
    ↔ m.Reaching (x + 1) (∃ v, Loaded m.memory m.index.toNat x m.v v
      ∧ o = .done { m with v := v }) o := by
  unfold Reaching
  rw [loadRegisters_eq, ← Nat.add_assoc, show 4096 = m.memory.length from hm.memory.symm]
  by_cases hfit : m.index.toNat + x + 1 ≤ m.memory.length
  · rw [if_pos hfit, if_pos hfit]
    constructor
    · rintro rfl
      exact ⟨_, (loaded_iff hfit).mpr rfl, rfl⟩
    · rintro ⟨v, hloaded, rfl⟩
      rw [(loaded_iff hfit).mp hloaded]
  · rw [if_neg hfit, if_neg hfit]
    exact eq_comm

variable [ByteSource ρ]

/-- The words that begin with 5 or 9 end in 0, or are unknown. -/
theorem unlisted_iff_of_last (hg : (Word.group w).toNat ∈ [0x5, 0x9])
    (hn : Word.n w ≠ 0) : m.executeWord w = o ↔ m.Unlisted w o := by
  have hlast : 0 ≠ (Word.n w).toNat := fun h => hn (UInt8.toNat_inj.mp h.symm)
  simp only [List.mem_cons, List.not_mem_nil, or_false] at hg
  refine unlisted_iff fun op => ?_
  rw [Word.digits_eq]
  rcases hg with hg | hg <;> rw [hg] <;> cases op <;>
    simp [Opcode.format, Format.accepts, hlast]

/-- A word begins with a digit that some format begins with, or is unknown. -/
theorem unlisted_iff_of_leading
    (hg : (Word.group w).toNat ∉ [0, 1, 2, 3, 4, 5, 6, 7, 8, 9, 0xa, 0xb, 0xc, 0xd, 0xf]) :
    m.executeWord w = o ↔ m.Unlisted w o := by
  simp only [List.mem_cons, List.not_mem_nil, or_false, not_or] at hg
  refine unlisted_iff fun op => ?_
  rw [Word.digits_eq]
  cases op <;> simp [Opcode.format, Format.accepts] <;> intros <;> omega

/-- A byte is added to a word in sixteen bits. -/
theorem ofNat_add_byte (a : UInt16) (b : UInt8) :
    UInt16.ofNat (a.toNat + b.toNat) = a + b.toUInt16 := by
  apply UInt16.toNat_inj.mp
  simp

theorem wrap_add_byte (a : UInt16) (b : UInt8) :
    UInt16.ofNat ((a.toNat + b.toNat) % 65536) = a + b.toUInt16 :=
  UInt16.ofNat_mod_size.trans (ofNat_add_byte a b)

/-- **The rows of 0 are exact.** -/
theorem zeroRow_iff (hm : m.Sized) (hg : (Word.group w).toNat = 0) :
    m.executeWord w = o ↔ m.ZeroRow w o := by
  have hdigits := Word.digits_nnn w
  rw [hg] at hdigits
  unfold ZeroRow
  split
  case h_1 hnnn =>
    rw [hnnn] at hdigits
    rw [executeWord_of_digits m .clearScreen hdigits rfl]
    show Outcome.done { m with screen := m.screen.clear } = o ↔ _
    rw [clear_eq_blank hm.screen]
    constructor
    · rintro rfl
      exact ⟨_, Screen.dark_iff.mpr rfl, rfl⟩
    · rintro ⟨screen, hdark, rfl⟩
      rw [Screen.dark_iff.mp hdark]
  case h_2 hnnn =>
    rw [hnnn] at hdigits
    rw [executeWord_of_digits m .returnFromCall hdigits rfl]
    exact returnFromCall_iff hm
  case h_3 he0 hee =>
    -- A format that begins with 0 fixes all its digits, to one of the two listed.
    have hother : (Word.nnn w).toNat ≠ 0x0e0 ∧ (Word.nnn w).toNat ≠ 0x0ee := ⟨he0, hee⟩
    refine unlisted_iff fun op => ?_
    rw [hdigits]
    cases op <;> simp [Opcode.format, Format.accepts] <;> intros <;> omega

/-- **The rows of F are exact.** -/
theorem portRow_iff (hm : m.Sized) (hg : (Word.group w).toNat = 0xf) :
    m.executeWord w = o ↔ m.PortRow w o := by
  unfold PortRow
  dsimp only
  split
  case h_1 hnn =>
    rw [executeWord_of_group_nn m .readDelay hg hnn rfl]
    simp only [Opcode.instruction, Word.field, perform, withRegister_of_lt (Word.x_lt w)]
    exact puts_iff rfl
  case h_2 hnn =>
    rw [executeWord_of_group_nn m .setDelay hg hnn rfl]
    simp only [Opcode.instruction, Word.field, perform, withRegister_of_lt (Word.x_lt w)]
    exact ends_iff rfl
  case h_3 hnn =>
    rw [executeWord_of_group_nn m .setSound hg hnn rfl]
    simp only [Opcode.instruction, Word.field, perform, withRegister_of_lt (Word.x_lt w)]
    exact ends_iff rfl
  case h_4 hnn =>
    rw [executeWord_of_group_nn m .addIndex hg hnn rfl]
    simp only [Opcode.instruction, Word.field, perform, withRegister_of_lt (Word.x_lt w)]
    exact ends_iff (by rw [wrap_add_byte]; rfl)
  case h_5 hnn =>
    rw [executeWord_of_group_nn m .pointGlyph hg hnn rfl]
    simp only [Opcode.instruction, Word.field, perform, withRegister_of_lt (Word.x_lt w)]
    exact ends_iff rfl
  case h_6 hnn =>
    rw [executeWord_of_group_nn m .storeDecimal hg hnn rfl]
    simp only [Opcode.instruction, Word.field, perform, withRegister_of_lt (Word.x_lt w)]
    refine storeBlock_iff hm rfl fun hfit => ⟨?_, ?_⟩
    · rintro ⟨h, t, u, memory, hdecimal, hstored, rfl⟩
      rw [isDecimal_iff.mp hdecimal] at hstored
      rw [(Memory.stored_iff hfit).mp hstored]
    · rintro rfl
      exact ⟨_, _, _, _, isDecimal_iff.mpr rfl, (Memory.stored_iff hfit).mpr rfl, rfl⟩
  case h_7 hnn =>
    rw [executeWord_of_group_nn m .storeRegisters hg hnn rfl]
    simp only [Opcode.instruction, Word.field, perform, withRegister_of_lt (Word.x_lt w)]
    refine storeBlock_iff hm (m.length_registersUpTo _) fun hfit => ⟨?_, ?_⟩
    · rintro ⟨memory, hstored, rfl⟩
      rw [(Memory.stored_iff hfit).mp hstored]
    · rintro rfl
      exact ⟨_, (Memory.stored_iff hfit).mpr rfl, rfl⟩
  case h_8 hnn =>
    rw [executeWord_of_group_nn m .loadRegisters hg hnn rfl]
    simp only [Opcode.instruction, Word.field, perform, withRegister_of_lt (Word.x_lt w)]
    exact loadRegisters_iff hm
  case h_9 h07 h15 h18 h1e h29 h33 h55 h65 =>
    -- A format that begins with F fixes the low byte to one of the eight listed.
    have hother : (Word.nn w).toNat ≠ 0x07 ∧ (Word.nn w).toNat ≠ 0x15 ∧ (Word.nn w).toNat ≠ 0x18
        ∧ (Word.nn w).toNat ≠ 0x1e ∧ (Word.nn w).toNat ≠ 0x29 ∧ (Word.nn w).toNat ≠ 0x33
        ∧ (Word.nn w).toNat ≠ 0x55 ∧ (Word.nn w).toNat ≠ 0x65 :=
      ⟨h07, h15, h18, h1e, h29, h33, h55, h65⟩
    refine unlisted_iff fun op => ?_
    rw [Word.digits_nn, hg]
    cases op <;> simp [Opcode.format, Format.accepts] <;> intros <;> omega

/-- **The table is exact** for every word whose leading digit is neither 8 nor D. -/
theorem table_exact (hm : m.Sized) (h8 : Word.group w ≠ 0x8) (hd : Word.group w ≠ 0xd) :
    m.executeWord w = o ↔ m.Row w o := by
  unfold Row
  dsimp only
  split
  case h_1 hg => exact zeroRow_iff hm hg
  case h_2 hg =>
    rw [executeWord_of_group m .jump hg rfl]
    simp only [Opcode.instruction, Word.field, perform, UInt16.ofNat_toNat]
    exact ends_iff rfl
  case h_3 hg =>
    rw [executeWord_of_group m .call hg rfl]
    simp only [Opcode.instruction, Word.field, perform, UInt16.ofNat_toNat]
    exact call_iff hm
  case h_4 hg =>
    rw [executeWord_of_group m .skipIfByte hg rfl]
    simp only [Opcode.instruction, Word.field, perform, UInt8.ofNat_toNat,
      withRegister_of_lt (Word.x_lt w)]
    exact skips_iff beq_iff_eq
  case h_5 hg =>
    rw [executeWord_of_group m .skipUnlessByte hg rfl]
    simp only [Opcode.instruction, Word.field, perform, UInt8.ofNat_toNat,
      withRegister_of_lt (Word.x_lt w)]
    exact skips_iff bne_iff_ne
  case h_6 hg =>
    by_cases hn : Word.n w = 0
    · rw [if_pos hn, executeWord_of_group m .skipIfEqual hg (by rw [hn]; rfl)]
      simp only [Opcode.instruction, Word.field, perform, withRegister_of_lt (Word.x_lt w),
        withRegister_of_lt (Word.y_lt w)]
      exact skips_iff beq_iff_eq
    · rw [if_neg hn]
      exact unlisted_iff_of_last (by rw [hg]; decide) hn
  case h_7 hg =>
    rw [executeWord_of_group m .setByte hg rfl]
    simp only [Opcode.instruction, Word.field, perform, UInt8.ofNat_toNat,
      withRegister_of_lt (Word.x_lt w)]
    exact puts_iff rfl
  case h_8 hg =>
    rw [executeWord_of_group m .addByte hg rfl]
    simp only [Opcode.instruction, Word.field, perform, UInt8.ofNat_toNat,
      withRegister_of_lt (Word.x_lt w)]
    exact puts_iff (UInt8.toNat_add ..)
  case h_9 hg =>
    by_cases hn : Word.n w = 0
    · rw [if_pos hn, executeWord_of_group m .skipUnlessEqual hg (by rw [hn]; rfl)]
      simp only [Opcode.instruction, Word.field, perform, withRegister_of_lt (Word.x_lt w),
        withRegister_of_lt (Word.y_lt w)]
      exact skips_iff bne_iff_ne
    · rw [if_neg hn]
      exact unlisted_iff_of_last (by rw [hg]; decide) hn
  case h_10 hg =>
    rw [executeWord_of_group m .setIndex hg rfl]
    simp only [Opcode.instruction, Word.field, perform, UInt16.ofNat_toNat]
    exact ends_iff rfl
  case h_11 hg =>
    rw [executeWord_of_group m .jumpOffset hg rfl]
    simp only [Opcode.instruction, Word.field, perform, UInt16.ofNat_toNat]
    have hfirst : m.v[0]? = some m.v0 := Vector.getElem?_eq_getElem (by decide)
    constructor
    · rintro rfl
      refine ⟨m.v0, hfirst, ?_⟩
      rw [ofNat_add_byte]
    · rintro ⟨first, hv, rfl⟩
      rw [Option.some.inj (hv.symm.trans hfirst), ofNat_add_byte]
  case h_12 hg =>
    rw [executeWord_of_group m .random hg rfl]
    simp only [Opcode.instruction, Word.field, perform, UInt8.ofNat_toNat,
      withRegister_of_lt (Word.x_lt w)]
    exact puts_iff (m := { m with random := (ByteSource.next m.random).2 }) (UInt8.toNat_and ..)
  case h_13 hg => exact portRow_iff hm hg
  case h_14 h0 h1 h2 h3 h4 h5 h6 h7 h9 ha hb hc hf =>
    -- Only the digit E is left, for which there is no format at all.
    have h8 : (Word.group w).toNat ≠ 0x8 := fun h => h8 (UInt8.toNat_inj.mp h)
    have hd : (Word.group w).toNat ≠ 0xd := fun h => hd (UInt8.toNat_inj.mp h)
    refine unlisted_iff_of_leading ?_
    simp only [List.mem_cons, List.not_mem_nil, or_false, not_or]
    exact ⟨h0, h1, h2, h3, h4, h5, h6, h7, h8, h9, ha, hb, hc, hd, hf⟩

/-- With 207 in every register and I at the last three bytes — a jump by v0 goes 207 bytes further, 64 more
wraps round to 15 in vA, and the decimal digits of vF just fit. -/
theorem table_exact_decimal :
    let m : Machine Stepper :=
      { powerOn (Stepper.mk 0 1) with index := 0xffd, v := Vector.replicate 16 207 }
    m.Sized ∧ Word.group 0xb300 = 0xb ∧ Word.group 0x7a40 = 0x7 ∧ Word.group 0xff33 = 0xf
    ∧ m.executeWord 0xb300 = .done { m with pc := 0x3cf }
    ∧ (∃ n, m.executeWord 0x7a40 = .done n ∧ n.v.get 10 = 15 ∧ ∀ r, r ≠ 10 → n.v.get r = 207)
    ∧ ∃ n, m.executeWord 0xff33 = .done n ∧ n.memory.bytes[0xffd]? = some 2
      ∧ n.memory.bytes[0xffe]? = some 0 ∧ n.memory.bytes[0xfff]? = some 7 := by
  intro m
  have hsized : m.Sized := ⟨Memory.length_fresh, Screen.size_blank, Nat.zero_le _⟩
  have hsame : ∀ r, m.v.get r = 207 := fun r => Vector.getElem_replicate r.isLt
  have hjump : m.executeWord 0xb300 = .done { m with pc := 0x3cf } :=
    (table_exact hsized (by decide) (by decide)).mpr
      ⟨207, Vector.getElem?_eq_getElem (by decide), rfl⟩
  have hadd : m.Row 0x7a40 (m.executeWord 0x7a40) :=
    (table_exact hsized (by decide) (by decide)).mp rfl
  have hstore : m.Row 0xff33 (m.executeWord 0xff33) :=
    (table_exact hsized (by decide) (by decide)).mp rfl
  obtain ⟨h, t, u, memory, hdecimal, ⟨-, hinside, -⟩, hdone⟩ := hstore
  rw [hsame] at hdecimal
  obtain ⟨rfl, rfl, rfl⟩ : h = 2 ∧ t = 0 ∧ u = 7 := by
    simpa [decimalDigits] using isDecimal_iff.mp hdecimal
  obtain ⟨n, hadded, hsum, hothers, -⟩ := hadd
  rw [hsame] at hsum
  refine ⟨hsized, by decide, by decide, by decide, hjump,
    ⟨n, hadded, UInt8.toNat_inj.mp hsum, fun r hr => ?_⟩, _, hdone, ?_⟩
  · rw [hothers r hr, hsame]
  · exact ⟨hinside 0 (by decide), hinside 1 (by decide), hinside 2 (by decide)⟩

end Exact

end Machine

end Chip8
