/-
  When a step fails, and with what.

  `Machine.step` fails where one of its parts does: the fetch, the decoding, or one of the six
  instructions that can.  The rows of `Machine.Refusal` say the same from outside — from the bytes at the
  program counter, the pattern of the word, the live frames and I — with the error each of them gives.
  1. **One law for each part** (`Outcome.Fails`).  It says exactly when the part fails, and with which
     error: `fails_returnFromCall_iff`, `fails_call_iff`, `fails_storeBlock_iff`,
     `fails_loadRegisters_iff`, `fails_drawSprite_iff`; the other instructions never do (`perform_done`).
  2. **The rows are exact** (`fails_step_iff`).  A step fails with an error exactly if a row gives that
     error.  So no two rows that hold at once give different errors, and a step to which no row applies
     is done (`refused_exactly`).
-/
import Chip8.Proofs.Atomicity
import Chip8.Proofs.Run
import Chip8.Proofs.Table

namespace Chip8

variable {ρ σ : Type}

/-! ## Failing with an error -/

/-- Did the operation fail with this error? -/
def Outcome.Fails (o : Outcome σ) (e : Error) : Prop := ∃ s, o = .failed (.error e) s

/-- What is done has not failed. -/
theorem Outcome.not_fails_done {s : σ} {e : Error} : ¬ (done s).Fails e := by
  rintro ⟨t, h⟩
  cases h

/-- An operation fails with one error only. -/
theorem Outcome.fails_error_iff {s : σ} {e e' : Error} : (failed (.error e) s).Fails e' ↔ e' = e := by
  constructor
  · rintro ⟨t, h⟩
    cases h
    rfl
  · rintro rfl
    exact ⟨s, rfl⟩

/-! ## The rows -/

namespace Machine

/-- The machine stands before a word, its high byte first. -/
def Before (m : Machine ρ) (w : UInt16) : Prop :=
  ∃ high low, m.memory.bytes[m.pc.toNat]? = some high ∧ m.memory.bytes[m.pc.toNat + 1]? = some low
    ∧ w.toNat = 256 * high.toNat + low.toNat

/-- The machine stands before a word that has the pattern of an opcode. -/
structure Faces (m : Machine ρ) (op : Opcode) (w : UInt16) : Prop where
  before : m.Before w
  pattern : op.format.accepts (Word.digits w) = true

/-- The errors that a step is refused with. -/
inductive Refusal (m : Machine ρ) : Error → Prop where
  /-- Behind memory there is nothing. -/
  | behind (far : 0x1000 ≤ m.pc.toNat) : Refusal m (.invalidAddress m.pc.toNat)
  /-- At the last byte there is only half a word. -/
  | half (last : m.pc.toNat = 0xfff) : Refusal m (.invalidAddress 0x1000)
  /-- A word without a pattern. -/
  | unlisted {w : UInt16} (before : m.Before w)
      (none : ∀ op : Opcode, op.format.accepts (Word.digits w) = false) : Refusal m (.unimplemented w)
  /-- `00EE` on an empty stack. -/
  | underflow {w : UInt16} (faces : m.Faces .returnFromCall w) (empty : m.stack.live = []) :
      Refusal m (.stackUnderflow (m.pc + 2))
  /-- `2nnn` on a full stack. -/
  | overflow {w : UInt16} (faces : m.Faces .call w) (full : m.stack.live.length = 16) :
      Refusal m (.stackOverflow (m.pc + 2) 16)
  /-- `Fx33` without room for three digits. -/
  | decimal {w : UInt16} (faces : m.Faces .storeDecimal w) (far : 0x1000 < m.index.toNat + 3) :
      Refusal m (.invalidAddress (max m.index.toNat 0x1000))
  /-- `Fx55` and `Fx65` without room for v0 to vX. -/
  | block {w : UInt16} (faces : m.Faces .storeRegisters w ∨ m.Faces .loadRegisters w)
      (far : 0x1000 < m.index.toNat + Word.x w + 1) :
      Refusal m (.invalidAddress (max m.index.toNat 0x1000))
  /-- `Dxyn` with rows on the screen that lie past the end of memory. -/
  | sprite {w : UInt16} (faces : m.Faces .draw w) (rows : 1 ≤ (Word.n w).toNat)
      (far : 0x1000 < m.index.toNat
        + min (Word.n w).toNat (32 - (m.v.get (Word.regY w)).toNat % 32)) :
      Refusal m (.invalidAddress (max m.index.toNat 0x1000))
  /-- `Dxy0`, which reads nothing, with I past the end of memory. -/
  | blank {w : UInt16} (faces : m.Faces .draw w) (rows : (Word.n w).toNat = 0)
      (far : 0x1000 < m.index.toNat) : Refusal m (.invalidAddress m.index.toNat)

/-- Standing before a word is being able to fetch it. -/
theorem before_iff {m : Machine ρ} {w : UInt16} : m.Before w ↔ m.fetch = .ok w := by
  have hword : ∀ high low : UInt8,
      w.toNat = 256 * high.toNat + low.toNat ↔ w = Word.ofBytes high low := by
    intro high low
    rw [← UInt16.toNat_inj, Word.toNat_ofBytes]
  unfold fetch
  rw [Memory.word_eq_ok_iff]
  simp only [Before, hword]

/-- Below the last byte there is a word. -/
theorem exists_before {m : Machine ρ} (hm : m.Sized) (hpc : m.pc.toNat < 0xfff) :
    ∃ w, m.Before w := by
  have hlength : m.memory.bytes.size = 0x1000 := hm.memory
  have hhigh : m.memory.bytes[m.pc.toNat]? = some m.memory.bytes[m.pc.toNat] :=
    Array.getElem?_eq_getElem (by omega)
  have hlow : m.memory.bytes[m.pc.toNat + 1]? = some m.memory.bytes[m.pc.toNat + 1] :=
    Array.getElem?_eq_getElem (by omega)
  exact ⟨_, before_iff.mpr (Memory.word_eq_ok_iff.mpr ⟨_, _, hhigh, hlow, rfl⟩)⟩

/-! ## The parts that can fail -/

section Parts

variable {m : Machine ρ} {e : Error}

/-- A return fails exactly if there is nothing to return to. -/
theorem fails_returnFromCall_iff (hm : m.Sized) :
    m.returnFromCall.Fails e ↔ m.stack.live = [] ∧ e = .stackUnderflow m.pc := by
  by_cases hempty : m.stack.live = []
  · have hend := (returnFromCall_iff (o := .failed (.error (.stackUnderflow m.pc)) m) hm).mpr
      (by rw [if_pos hempty])
    rw [hend, Outcome.fails_error_iff]
    exact (and_iff_right hempty).symm
  · have hend := (returnFromCall_iff hm).mp rfl
    rw [if_neg hempty] at hend
    obtain ⟨address, stack, -, hdone⟩ := hend
    rw [hdone]
    exact iff_of_false Outcome.not_fails_done fun h => hempty h.1

/-- A call fails exactly if sixteen frames are live. -/
theorem fails_call_iff (hm : m.Sized) {a : UInt16} :
    (m.call a).Fails e ↔ m.stack.live.length = 16 ∧ e = .stackOverflow m.pc 16 := by
  have hend := (call_iff hm (a := a)).mp rfl
  have hlength := m.stack.length_live
  by_cases hroom : m.stack.live.length < 16
  · rw [if_pos hroom] at hend
    obtain ⟨stack, -, hdone⟩ := hend
    rw [hdone]
    exact iff_of_false Outcome.not_fails_done fun h => by omega
  · have hfull : m.stack.live.length = 16 := by
      simp only [stackDepth] at hlength
      omega
    rw [if_neg hroom] at hend
    rw [hend, Outcome.fails_error_iff]
    exact (and_iff_right hfull).symm

/-- A store fails exactly if its block ends behind memory. -/
theorem fails_storeBlock_iff (hm : m.Sized) {block : List UInt8} :
    (m.storeBlock block).Fails e
      ↔ 0x1000 < m.index.toNat + block.length ∧ e = .invalidAddress (max m.index.toNat 0x1000) := by
  have hlength : m.memory.length = 0x1000 := hm.memory
  rw [storeBlock_eq, hlength]
  by_cases hfit : m.index.toNat + block.length ≤ 0x1000
  · rw [if_pos hfit]
    exact iff_of_false Outcome.not_fails_done fun h => Nat.not_lt.mpr hfit h.1
  · rw [if_neg hfit]
    exact Outcome.fails_error_iff.trans (and_iff_right (Nat.lt_of_not_le hfit)).symm

/-- So does a load. -/
theorem fails_loadRegisters_iff (hm : m.Sized) {x : Fin 16} : (m.loadRegisters x).Fails e
    ↔ 0x1000 < m.index.toNat + x + 1 ∧ e = .invalidAddress (max m.index.toNat 0x1000) := by
  have hlength : m.memory.length = 0x1000 := hm.memory
  rw [loadRegisters_eq, hlength]
  by_cases hfit : m.index.toNat + x + 1 ≤ 0x1000
  · rw [if_pos hfit]
    exact iff_of_false Outcome.not_fails_done fun h => Nat.not_lt.mpr hfit h.1
  · rw [if_neg hfit]
    exact Outcome.fails_error_iff.trans (and_iff_right (Nat.lt_of_not_le hfit)).symm

/-- A sprite is refused exactly if the rows that are on the screen end behind memory; rows below the screen
are not read. -/
theorem fails_drawSprite_iff (hm : m.Sized) {x y : Fin 16} {rows : UInt8} :
    (m.drawSprite x y rows).Fails e
      ↔ 0x1000 < m.index.toNat + min rows.toNat (32 - (m.v.get y).toNat % 32)
        ∧ e = .invalidAddress (max m.index.toNat 0x1000) := by
  have hlength : m.memory.length = 0x1000 := hm.memory
  have hslice := Memory.slice_add m.memory m.index.toNat
    (min rows.toNat (Screen.height - (m.v.get y).toNat % Screen.height))
  rw [hlength] at hslice
  by_cases hfit : m.index.toNat
      + min rows.toNat (Screen.height - (m.v.get y).toNat % Screen.height) ≤ 0x1000
  · rw [if_pos hfit] at hslice
    obtain ⟨hit, screen, -, hdraw⟩ := drawSprite_of_slice hm x y rows hslice
    rw [hdraw]
    exact iff_of_false Outcome.not_fails_done fun h => Nat.not_lt.mpr hfit h.1
  · rw [if_neg hfit] at hslice
    unfold drawSprite
    simp only [hslice]
    exact Outcome.fails_error_iff.trans (and_iff_right (Nat.lt_of_not_le hfit)).symm

end Parts

end Machine

/-- Can the opcode fail? -/
def Opcode.fallible : Opcode → Bool
  | returnFromCall | call | draw | storeDecimal | storeRegisters | loadRegisters => true
  | _ => false

namespace Machine

variable [ByteSource ρ]

/-- The other instructions are always done. -/
theorem perform_done (m : Machine ρ) {i : Instruction} (hi : i.InRange)
    (hsure : i.opcode.fallible = false) : ∃ n, m.perform i = .done n := by
  obtain ⟨hx, hy⟩ := hi
  cases i <;> simp only [Instruction.opcode, Opcode.fallible, Bool.true_eq_false] at hsure <;>
    simp only [Instruction.operand] at hx hy <;>
    simp only [perform, withRegister_of_lt, hx, hy] <;>
    exact ⟨_, rfl⟩

/-! ## Steps -/

section Steps

variable {m : Machine ρ} {w : UInt16} {e : Error}

/-- A step before a pattern carries its opcode out, with the fields of the word. -/
theorem step_of_faces (hrun : m.switches.paused = false) {op : Opcode} (h : m.Faces op w) :
    m.step = (m.advance w).perform (op.instruction (Word.field w)) := by
  have hword : m.upcoming = some w := upcoming_eq_some_iff.mpr ⟨hrun, before_iff.mp h.before⟩
  rw [step_of_upcoming hword, executeWord_of_digits _ op rfl h.pattern]

/-- A word that no pattern fits is reported as it is. -/
theorem fails_step_of_unlisted (hrun : m.switches.paused = false) (hbefore : m.Before w)
    (hnone : ∀ op : Opcode, op.format.accepts (Word.digits w) = false) :
    m.step.Fails e ↔ e = .unimplemented w := by
  have hword : m.upcoming = some w := upcoming_eq_some_iff.mpr ⟨hrun, before_iff.mp hbefore⟩
  rw [step_of_upcoming hword, executeWord, Instruction.ofWord?_eq_none_iff.mpr hnone]
  exact Outcome.fails_error_iff

/-- The address in the error is the one behind the return. -/
theorem fails_step_of_returnFromCall (hm : m.Sized) (hrun : m.switches.paused = false)
    (h : m.Faces .returnFromCall w) :
    m.step.Fails e ↔ m.stack.live = [] ∧ e = .stackUnderflow (m.pc + 2) := by
  rw [step_of_faces hrun h]
  exact fails_returnFromCall_iff (sized_advance hm w)

theorem fails_step_of_call (hm : m.Sized) (hrun : m.switches.paused = false)
    (h : m.Faces .call w) :
    m.step.Fails e ↔ m.stack.live.length = 16 ∧ e = .stackOverflow (m.pc + 2) 16 := by
  rw [step_of_faces hrun h]
  exact fails_call_iff (sized_advance hm w)

/-- `Fx33` needs room for three bytes. -/
theorem fails_step_of_storeDecimal (hm : m.Sized) (hrun : m.switches.paused = false)
    (h : m.Faces .storeDecimal w) : m.step.Fails e
      ↔ 0x1000 < m.index.toNat + 3 ∧ e = .invalidAddress (max m.index.toNat 0x1000) := by
  rw [step_of_faces hrun h]
  simp only [Opcode.instruction, Word.field, perform, withRegister_of_lt (Word.x_lt w)]
  exact fails_storeBlock_iff (sized_advance hm w)

/-- `Fx55` needs room for as many as it stores registers. -/
theorem fails_step_of_storeRegisters (hm : m.Sized) (hrun : m.switches.paused = false)
    (h : m.Faces .storeRegisters w) : m.step.Fails e
      ↔ 0x1000 < m.index.toNat + Word.x w + 1 ∧ e = .invalidAddress (max m.index.toNat 0x1000) := by
  rw [step_of_faces hrun h]
  simp only [Opcode.instruction, Word.field, perform, withRegister_of_lt (Word.x_lt w)]
  rw [fails_storeBlock_iff (sized_advance hm w), length_registersUpTo]
  exact Iff.rfl

theorem fails_step_of_loadRegisters (hm : m.Sized) (hrun : m.switches.paused = false)
    (h : m.Faces .loadRegisters w) : m.step.Fails e
      ↔ 0x1000 < m.index.toNat + Word.x w + 1 ∧ e = .invalidAddress (max m.index.toNat 0x1000) := by
  rw [step_of_faces hrun h]
  simp only [Opcode.instruction, Word.field, perform, withRegister_of_lt (Word.x_lt w)]
  exact fails_loadRegisters_iff (sized_advance hm w)

/-- `Dxyn` needs its rows, as far down as the screen goes. -/
theorem fails_step_of_draw (hm : m.Sized) (hrun : m.switches.paused = false)
    (h : m.Faces .draw w) : m.step.Fails e
      ↔ 0x1000 < m.index.toNat + min (Word.n w).toNat (32 - (m.v.get (Word.regY w)).toNat % 32)
        ∧ e = .invalidAddress (max m.index.toNat 0x1000) := by
  rw [step_of_faces hrun h]
  simp only [Opcode.instruction, Word.field, perform, withRegister_of_lt (Word.x_lt w),
    withRegister_of_lt (Word.y_lt w), UInt8.ofNat_toNat]
  exact fails_drawSprite_iff (sized_advance hm w)

/-- A machine that stands before no word fails to fetch one. -/
theorem fails_step_of_fetch_error (hm : m.Sized) (hrun : m.switches.paused = false)
    (hpc : 0xfff ≤ m.pc.toNat) :
    m.step.Fails e ↔ e = .invalidAddress (max m.pc.toNat 0x1000) := by
  have hlength : m.memory.length = 0x1000 := hm.memory
  have hfetch := fetch_of_length_le (m := m) (by omega)
  rw [hlength] at hfetch
  rw [step_of_fetch_error hrun hfetch, Outcome.fails_error_iff]

/-- A step before a pattern is refused only by the rows of its opcode. -/
theorem refusal_of_faces (hm : m.Sized) (hrun : m.switches.paused = false) {op : Opcode}
    (hfaces : m.Faces op w) (h : m.step.Fails e) : m.Refusal e := by
  by_cases hsure : op.fallible = false
  · have hi := Instruction.inRange_of_ofWord? (Instruction.ofWord?_of_accepts hfaces.pattern)
    obtain ⟨n, hdone⟩ := (m.advance w).perform_done hi (by rwa [Instruction.opcode_instruction])
    rw [step_of_faces hrun hfaces, hdone] at h
    exact absurd h Outcome.not_fails_done
  · -- Six opcodes can fail, and each of them has its row; drawing has two.
    cases op <;> simp only [Opcode.fallible, not_true_eq_false] at hsure
    case returnFromCall =>
      obtain ⟨hempty, rfl⟩ := (fails_step_of_returnFromCall hm hrun hfaces).mp h
      exact .underflow hfaces hempty
    case call =>
      obtain ⟨hfull, rfl⟩ := (fails_step_of_call hm hrun hfaces).mp h
      exact .overflow hfaces hfull
    case storeDecimal =>
      obtain ⟨hfar, rfl⟩ := (fails_step_of_storeDecimal hm hrun hfaces).mp h
      exact .decimal hfaces hfar
    case storeRegisters =>
      obtain ⟨hfar, rfl⟩ := (fails_step_of_storeRegisters hm hrun hfaces).mp h
      exact .block (.inl hfaces) hfar
    case loadRegisters =>
      obtain ⟨hfar, rfl⟩ := (fails_step_of_loadRegisters hm hrun hfaces).mp h
      exact .block (.inr hfaces) hfar
    case draw =>
      obtain ⟨hfar, rfl⟩ := (fails_step_of_draw hm hrun hfaces).mp h
      by_cases hrows : (Word.n w).toNat = 0
      · have hindex : 0x1000 < m.index.toNat := by omega
        rw [Nat.max_eq_left (Nat.le_of_lt hindex)]
        exact .blank hfaces hrows hindex
      · exact .sprite hfaces (Nat.pos_of_ne_zero hrows) hfar

/-- **The rows are exact**: a step fails with an error exactly if a row gives it. -/
theorem fails_step_iff (hm : m.Sized) (hrun : m.switches.paused = false) :
    m.step.Fails e ↔ m.Refusal e := by
  constructor
  · intro h
    by_cases hpc : 0xfff ≤ m.pc.toNat
    · obtain rfl := (fails_step_of_fetch_error hm hrun hpc).mp h
      rcases Nat.eq_or_lt_of_le hpc with hlast | hfar
      · rw [← hlast]
        exact .half hlast.symm
      · rw [Nat.max_eq_left hfar]
        exact .behind hfar
    · obtain ⟨w, hbefore⟩ := exists_before hm (Nat.lt_of_not_le hpc)
      by_cases hpattern : ∃ op : Opcode, op.format.accepts (Word.digits w) = true
      · obtain ⟨op, hpattern⟩ := hpattern
        exact refusal_of_faces hm hrun ⟨hbefore, hpattern⟩ h
      · have hnone : ∀ op : Opcode, op.format.accepts (Word.digits w) = false :=
          fun op => Bool.eq_false_iff.mpr fun hop => hpattern ⟨op, hop⟩
        obtain rfl := (fails_step_of_unlisted hrun hbefore hnone).mp h
        exact .unlisted hbefore hnone
  · intro h
    cases h with
    | behind hfar =>
      rw [fails_step_of_fetch_error hm hrun (by omega), Nat.max_eq_left hfar]
    | half hlast =>
      rw [fails_step_of_fetch_error hm hrun (by omega), hlast]
      rfl
    | unlisted hbefore hnone => exact (fails_step_of_unlisted hrun hbefore hnone).mpr rfl
    | underflow hfaces hempty => exact (fails_step_of_returnFromCall hm hrun hfaces).mpr ⟨hempty, rfl⟩
    | overflow hfaces hfull => exact (fails_step_of_call hm hrun hfaces).mpr ⟨hfull, rfl⟩
    | decimal hfaces hfar => exact (fails_step_of_storeDecimal hm hrun hfaces).mpr ⟨hfar, rfl⟩
    | block hfaces hfar =>
      rcases hfaces with hfaces | hfaces
      · exact (fails_step_of_storeRegisters hm hrun hfaces).mpr ⟨hfar, rfl⟩
      · exact (fails_step_of_loadRegisters hm hrun hfaces).mpr ⟨hfar, rfl⟩
    | sprite hfaces hrows hfar => exact (fails_step_of_draw hm hrun hfaces).mpr ⟨hfar, rfl⟩
    | blank hfaces hrows hfar =>
      refine (fails_step_of_draw hm hrun hfaces).mpr ⟨by omega, ?_⟩
      rw [Nat.max_eq_left (Nat.le_of_lt hfar)]

end Steps

/-- **What a step is refused with.**  On a reachable machine that is not paused
    * a step fails with an error exactly if a row gives that error;
    * it is done exactly if no row applies, and there is no third way;
    * no step ever finds a program too large, a register missing or a file unreadable. -/
theorem refused_exactly {m : Machine ρ} (hm : m.Reachable) (hrun : m.switches.paused = false) :
    (∀ e, (∃ n, m.step = .failed (.error e) n) ↔ m.Refusal e)
    ∧ ((∃ n, m.step = .done n) ↔ ∀ e, ¬ m.Refusal e)
    ∧ ∀ fault n, m.step = .failed fault n → ∃ e, fault = .error e
      ∧ (∀ length limit, e ≠ .programTooLarge length limit) ∧ (∀ r, e ≠ .invalidRegister r)
      ∧ ∀ cause, e ≠ .file cause := by
  have hiff := fun e => fails_step_iff hm.sized hrun (e := e)
  refine ⟨hiff, ⟨?_, fun hnone => ?_⟩, fun fault n hfail => ?_⟩
  · rintro ⟨n, hdone⟩ e hrefused
    obtain ⟨n', hfail⟩ := (hiff e).mpr hrefused
    rw [hdone] at hfail
    cases hfail
  · cases hstep : m.step with
    | done n => exact ⟨n, rfl⟩
    | failed fault n =>
      obtain ⟨⟨e, rfl⟩, -⟩ := step_failed hm.sized hstep
      exact absurd ((hiff e).mp ⟨n, hstep⟩) (hnone e)
  · obtain ⟨⟨e, rfl⟩, -⟩ := step_failed hm.sized hfail
    have hrefused := (hiff e).mp ⟨n, hfail⟩
    refine ⟨e, rfl, fun length limit h => ?_, fun r h => ?_, fun cause h => ?_⟩ <;> subst h <;>
      cases hrefused

/-- A sprite of three rows on the last two lines, with I at the last byte — the third row is never read,
but the second is already missing. -/
theorem refused_exactly_sprite :
    let m := after [.load [0xd0, 0x13], .setRegister 1 30, .executeWord 0xafff]
      (powerOn (Stepper.mk 0 1))
    m.Reachable ∧ m.switches.paused = false ∧ m.Refusal (.invalidAddress 0x1000)
    ∧ ∃ n, m.step = .failed (.error (.invalidAddress 0x1000)) n := by
  intro m
  have hreach : m.Reachable := ⟨_, _, rfl⟩
  obtain ⟨memory, hload, hloaded⟩ := load_powerOn (Stepper.mk 0 1) [0xd0, 0x13] (by decide)
  have hindex : Instruction.ofWord? 0xafff = some (.setIndex 0xfff) := by decide
  have hm : m = { powerOn (Stepper.mk 0 1) with
      memory := memory, v := (Vector.replicate 16 0).set 1 30, index := 0xfff } := by
    have hafter : m = ((((powerOn (Stepper.mk 0 1)).load [0xd0, 0x13]).state.setRegister 1
      30).state.executeWord 0xafff).state := rfl
    rw [hafter, hloaded, Outcome.state_done, executeWord, hindex]
    rfl
  obtain ⟨hrun, hi, hv⟩ : m.switches.paused = false ∧ m.index = 0xfff
      ∧ m.v.get (Word.regY 0xd013) = 30 := by
    rw [hm]
    exact ⟨rfl, rfl, rfl⟩
  have hfaces : m.Faces .draw 0xd013 := by
    rw [hm]
    exact ⟨before_iff.mpr (fetch_load hload (k := 0) rfl rfl rfl (by decide)), by decide⟩
  have hfar : 0x1000 < m.index.toNat
      + min (Word.n 0xd013).toNat (32 - (m.v.get (Word.regY 0xd013)).toNat % 32) := by
    rw [hi, hv]
    decide
  have hmax : max m.index.toNat 0x1000 = 0x1000 := by
    rw [hi]
    decide
  have hrefused : m.Refusal (.invalidAddress 0x1000) := by
    rw [← hmax]
    exact .sprite hfaces (by decide) hfar
  exact ⟨hreach, hrun, hrefused, ((refused_exactly hreach hrun).1 _).mpr hrefused⟩

end Machine

end Chip8
