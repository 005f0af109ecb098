/-
  Every place has its own writers.

  A place (`Place`) is what one can watch of a machine on its own — a byte, a register, a timer.  Two
  tables say who may write there: `Instruction.Writes` for the instructions, with the addresses and the
  registers that they reach, and `Operation.Writes` for whoever uses the machine directly.
  1. **One instruction** (`same_perform`).  Where `Opcode.writes` does not list the part that a place lies
     in, there is nothing to show.  The rest are the two stores, whose block ends where the table says,
     and the instructions that put something into registers.
  2. **One operation** (`same_apply`).  It is an instruction that succeeds, on a machine that may have
     moved on to the next word; or nothing but that, if it fails; or no instruction at all.
  3. **A history** (`writes_of_not_same`).  What differs at its end was written at some point of it.
-/
import Chip8.Proofs.Operation
import Chip8.Proofs.Run

namespace Chip8

variable {ρ : Type}

/-! ## Places and their writers -/

/-- Something of a machine that can be watched on its own. -/
inductive Place where
  /-- The byte at an address. -/
  | byte (address : Nat)
  | screen
  | stack
  | index
  | delay
  | sound
  /-- The register of this number. -/
  | register (r : Nat)
  | switches

/-- Do two machines have the same in a place? -/
def Place.Same (m n : Machine ρ) : Place → Prop
  | byte a => n.memory.bytes[a]? = m.memory.bytes[a]?
  | screen => n.screen = m.screen
  | stack => n.stack = m.stack
  | index => n.index = m.index
  | delay => n.delay = m.delay
  | sound => n.sound = m.sound
  | register r => n.v[r]? = m.v[r]?
  | switches => n.switches = m.switches

theorem Place.same_refl (p : Place) (m : Machine ρ) : p.Same m m := by cases p <;> rfl

theorem Place.Same.trans {p : Place} {l m n : Machine ρ} (hlm : p.Same l m) (hmn : p.Same m n) :
    p.Same l n := by
  cases p <;> exact Eq.trans hmn hlm

/-- The places that an instruction may write, if it succeeds. -/
def Instruction.Writes (m : Machine ρ) : Instruction → Place → Prop
  | storeDecimal _, .byte a => m.index.toNat ≤ a ∧ a < m.index.toNat + 3
  | storeRegisters x, .byte a => m.index.toNat ≤ a ∧ a ≤ m.index.toNat + x
  | clearScreen, .screen | draw .., .screen => True
  | call _, .stack | returnFromCall, .stack => True
  | setIndex _, .index | addIndex _, .index | pointGlyph _, .index => True
  | setDelay _, .delay => True
  | setSound _, .sound => True
  | setByte x _, .register r | addByte x _, .register r | copy x _, .register r
  | bitOr x _, .register r | bitAnd x _, .register r | bitXor x _, .register r
  | random x _, .register r | readDelay x, .register r => r = x
  | add x _, .register r | subtract x _, .register r | shiftRight x _, .register r
  | subtractFrom x _, .register r | shiftLeft x _, .register r => r = x ∨ r = 15
  | loadRegisters x, .register r => r ≤ x
  | draw .., .register r => r = 15
  | _, _ => False

/-- Of the other parts, an instruction that is listed writes the whole. -/
theorem Instruction.writes_of_mem (m : Machine ρ) (i : Instruction) :
    (.screen ∈ i.opcode.writes → i.Writes m .screen) ∧ (.stack ∈ i.opcode.writes → i.Writes m .stack)
    ∧ (.index ∈ i.opcode.writes → i.Writes m .index)
    ∧ (.delay ∈ i.opcode.writes → i.Writes m .delay)
    ∧ (.sound ∈ i.opcode.writes → i.Writes m .sound) := by
  cases i <;> simp [opcode, Opcode.writes, Writes]

namespace Operation

/-- Is the operation one of the four that use a machine directly — a step, a word, a register, a tick? -/
def Direct : Operation → Prop
  | step | executeWord _ | setRegister .. | tick => True
  | _ => False

variable [ByteSource ρ]

/-- The instruction that an operation carries out with success. -/
def performed? (m : Machine ρ) : Operation → Option Instruction
  | step => m.executed?.bind Instruction.ofWord?
  | executeWord w =>
      match m.executeWord w with
      | .done _ => Instruction.ofWord? w
      | .failed .. => none
  | _ => none

/-- The places that such an operation may write. -/
def Writes (m : Machine ρ) (op : Operation) (p : Place) : Prop :=
  match op with
  | setRegister r _ => p = .register r
  | tick => p = .delay ∨ p = .sound
  | op => ∃ i, op.performed? m = some i ∧ i.Writes m p

end Operation

namespace Memory

/-- Behind the font a fresh memory is zero. -/
theorem byte_fresh {a : Nat} (hfont : Region.charset.stop ≤ a) (hin : a < memorySize) :
    Memory.fresh.bytes[a]? = some 0 := by
  have hstop : Region.charset.stop = 160 := rfl
  have hmemory : memorySize = 4096 := rfl
  have hsize : (Array.replicate fontStart (0 : UInt8) ++ font.toArray).size = 160 := by
    rw [Array.size_append, Array.size_replicate]
    rfl
  have hrest : memorySize - fontStart - font.length = 3936 := rfl
  unfold Memory.fresh
  rw [Array.getElem?_append_right (by omega), Array.getElem?_replicate, hrest, hsize,
    if_pos (by omega)]

end Memory

namespace Machine

variable {m : Machine ρ}

/-! ## Registers and bytes -/

section Values

variable {r : Nat} {x y : Fin 16}

theorem register_setV (h : r ≠ x) (value : UInt8) : (m.setV x value).v[r]? = m.v[r]? :=
  Vector.getElem?_set_ne x.isLt (Ne.symm h)

theorem register_setResult (h : r ≠ x) (hflag : r ≠ 15) (value flag : UInt8) :
    (m.setResult x value flag).v[r]? = m.v[r]? :=
  (Vector.getElem?_set_ne (by decide) (Ne.symm hflag)).trans
    (Vector.getElem?_set_ne x.isLt (Ne.symm h))

theorem register_drawSprite (hflag : r ≠ 15) (rows : UInt8) :
    (m.drawSprite x y rows).state.v[r]? = m.v[r]? := by
  unfold drawSprite
  dsimp only
  split
  · rfl
  · split <;> exact Vector.getElem?_set_ne (by decide) (Ne.symm hflag)

/-- Registers behind the last one that is loaded stay as they are. -/
theorem register_loadRegisters (h : x < r) : (m.loadRegisters x).state.v[r]? = m.v[r]? := by
  unfold loadRegisters
  split
  · rename_i values hslice
    rw [Nat.add_assoc] at hslice
    have hlength := Memory.length_of_slice_eq_ok hslice
    have hnone : values[r]? = none := List.getElem?_eq_none (by omega)
    simp only [Outcome.state_done, overwriteRegisters, Vector.getElem?_ofFn, hnone,
      Option.getD_none]
    by_cases hr : r < 16
    · rw [dif_pos hr, Vector.getElem?_eq_getElem hr]
      rfl
    · rw [dif_neg hr, Vector.getElem?_eq_none (Nat.le_of_not_lt hr)]
  · rfl

/-- A store leaves what lies outside of its block. -/
theorem byte_storeBlock {a : Nat} {block : List UInt8}
    (h : ¬ (m.index.toNat ≤ a ∧ a < m.index.toNat + block.length)) :
    (m.storeBlock block).state.memory.bytes[a]? = m.memory.bytes[a]? := by
  unfold storeBlock
  split
  · show (Memory.overwrite m.memory.bytes m.index.toNat block)[a]? = _
    rw [Memory.getElem?_overwrite, if_neg fun hin => h ⟨hin.1, hin.2.1⟩]
  · rfl

end Values

/-- Moving on to the next word touches no place. -/
theorem same_advance (m : Machine ρ) (w : UInt16) (p : Place) : p.Same m (m.advance w) := by
  cases p <;> rfl

/-! ## One instruction -/

variable [ByteSource ρ]

theorem byte_perform (m : Machine ρ) {i : Instruction} {a : Nat} (h : ¬ i.Writes m (.byte a)) :
    (m.perform i).state.memory.bytes[a]? = m.memory.bytes[a]? := by
  by_cases hpart : Part.memory ∈ i.opcode.writes
  · cases i <;> simp [Instruction.opcode, Opcode.writes] at hpart <;>
      simp only [Instruction.Writes] at h <;> simp only [perform]
    case storeDecimal =>
      exact withRegister_keeps (P := fun n => n.memory.bytes[a]? = _) rfl fun x => byte_storeBlock h
    case storeRegisters =>
      refine withRegister_of_number (P := fun n => n.memory.bytes[a]? = _) rfl fun x hx => ?_
      refine byte_storeBlock fun hin => h ⟨hin.1, ?_⟩
      rw [length_registersUpTo] at hin
      omega
  · exact congrArg (·.bytes[a]?) (part_perform m hpart)

theorem register_perform (m : Machine ρ) {i : Instruction} {r : Nat}
    (h : ¬ i.Writes m (.register r)) : (m.perform i).state.v[r]? = m.v[r]? := by
  by_cases hpart : Part.registers ∈ i.opcode.writes
  · cases i <;> simp [Instruction.opcode, Opcode.writes] at hpart <;>
      simp only [Instruction.Writes, not_or, Nat.not_le] at h <;> simp only [perform]
    case setByte | addByte | random | readDelay =>
      refine withRegister_of_number (P := fun n => n.v[r]? = _) rfl fun x hx => ?_
      exact register_setV (hx ▸ h) _
    case copy | bitOr | bitAnd | bitXor =>
      refine withRegister_of_number (P := fun n => n.v[r]? = _) rfl fun x hx => ?_
      refine withRegister_keeps (P := fun n => n.v[r]? = _) rfl fun y => ?_
      exact register_setV (hx ▸ h) _
    case add | subtract | subtractFrom =>
      refine withRegister_of_number (P := fun n => n.v[r]? = _) rfl fun x hx => ?_
      refine withRegister_keeps (P := fun n => n.v[r]? = _) rfl fun y => ?_
      exact register_setResult (hx ▸ h.1) h.2 _ _
    case shiftRight | shiftLeft =>
      refine withRegister_of_number (P := fun n => n.v[r]? = _) rfl fun x hx => ?_
      exact register_setResult (hx ▸ h.1) h.2 _ _
    case draw rows =>
      refine withRegister_keeps (P := fun n => n.v[r]? = _) rfl fun x => ?_
      refine withRegister_keeps (P := fun n => n.v[r]? = _) rfl fun y => ?_
      exact register_drawSprite h rows
    case loadRegisters =>
      refine withRegister_of_number (P := fun n => n.v[r]? = _) rfl fun x hx => ?_
      exact register_loadRegisters (hx ▸ h)
  · exact congrArg (·[r]?) (part_perform m hpart)

theorem switches_perform (m : Machine ρ) (i : Instruction) :
    (m.perform i).state.switches = m.switches :=
  (m.unwritten_perform i).1

/-- **An instruction changes only the places that it may write.** -/
theorem same_perform (m : Machine ρ) {i : Instruction} {p : Place} (h : ¬ i.Writes m p) :
    p.Same m (m.perform i).state := by
  have hpart : ∀ q : Part, (q ∈ i.opcode.writes → i.Writes m p) → q.Same m (m.perform i).state :=
    fun q hq => part_perform m fun hmem => h (hq hmem)
  obtain ⟨hscreen, hstack, hindex, hdelay, hsound⟩ := i.writes_of_mem m
  cases p with
  | byte a => exact byte_perform m h
  | register r => exact register_perform m h
  | switches => exact switches_perform m i
  | screen => exact hpart .screen hscreen
  | stack => exact hpart .stack hstack
  | index => exact hpart .index hindex
  | delay => exact hpart .delay hdelay
  | sound => exact hpart .sound hsound

/-! ## One operation -/

/-- A word is carried out with success, or it leaves the machine as it was. -/
theorem executeWord_cases (hm : m.Sized) (w : UInt16) :
    (∃ i n, Instruction.ofWord? w = some i ∧ m.perform i = .done n ∧ m.executeWord w = .done n)
    ∨ ∃ fault, m.executeWord w = .failed fault m := by
  cases hend : m.executeWord w with
  | done n =>
    have hdone := hend
    unfold executeWord at hdone
    cases hi : Instruction.ofWord? w with
    | none => rw [hi] at hdone; cases hdone
    | some i =>
      rw [hi] at hdone
      exact .inl ⟨i, n, rfl, hdone, rfl⟩
  | failed fault n =>
    obtain ⟨-, rfl⟩ := clean_executeWord hm w fault n hend
    exact .inr ⟨fault, rfl⟩

theorem same_executeWord (hm : m.Sized) {w : UInt16} {p : Place}
    (h : ¬ (Operation.executeWord w).Writes m p) : p.Same m (m.executeWord w).state := by
  obtain ⟨i, n, hi, hperform, hdone⟩ | ⟨fault, hfail⟩ := executeWord_cases hm w
  · have hperformed : (Operation.executeWord w).performed? m = some i := by
      simp only [Operation.performed?, hdone, hi]
    have hsame := same_perform m fun hw => h ⟨i, hperformed, hw⟩
    rwa [hperform, ← hdone] at hsame
  · rw [hfail]
    exact p.same_refl m

/-- A step that is done has carried out the word before it. -/
theorem performed?_of_done {n : Machine ρ} {w : UInt16} (hword : m.upcoming = some w)
    (hstep : m.step = .done n) : Operation.step.performed? m = Instruction.ofWord? w := by
  rw [Operation.performed?, executed?_of_done hstep, hword]
  rfl

/-- A step that fails has carried out nothing. -/
theorem performed?_of_failed {n : Machine ρ} {fault : Fault} (hstep : m.step = .failed fault n) :
    Operation.step.performed? m = none := by
  rw [Operation.performed?, executed?_of_failed hstep]
  rfl

/-- Nor has one that has no word before it. -/
theorem performed?_of_upcoming_none (hword : m.upcoming = none) :
    Operation.step.performed? m = none := by
  cases hstep : m.step with
  | done n =>
    rw [Operation.performed?, executed?_of_done hstep, hword]
    rfl
  | failed fault n => exact performed?_of_failed hstep

theorem same_step (hm : m.Sized) {p : Place} (h : ¬ Operation.step.Writes m p) :
    p.Same m m.step.state := by
  cases hword : m.upcoming with
  | none =>
    rw [step_of_upcoming_none hword]
    exact p.same_refl m
  | some w =>
    have hmoved := same_advance m w p
    obtain ⟨i, n, hi, hperform, hdone⟩ | ⟨fault, hfail⟩ := executeWord_cases (sized_advance hm w) w
    · have hstep : m.step = .done n := (step_of_upcoming hword).trans hdone
      have hperformed := (performed?_of_done hword hstep).trans hi
      have hsame := same_perform (m.advance w) fun hw => h ⟨i, hperformed, hw⟩
      rw [hperform] at hsame
      rw [hstep]
      exact hmoved.trans hsame
    · rw [step_of_upcoming hword, hfail]
      exact hmoved

/-- **An operation changes only the places that it may write.** -/
theorem same_apply (hm : m.Sized) {op : Operation} (hdirect : op.Direct) {p : Place}
    (h : ¬ op.Writes m p) : p.Same m (op.apply m).state := by
  cases op with
  | step => exact same_step hm h
  | executeWord w => exact same_executeWord hm h
  | setRegister r value =>
    show p.Same m (m.setRegister r value).state
    unfold setRegister
    split
    · rename_i hr
      cases p with
      | register s =>
        have hne : r ≠ s := fun heq => h (congrArg Place.register heq.symm)
        exact Vector.getElem?_set_ne hr hne
      | _ => rfl
    · exact p.same_refl m
  | tick =>
    cases p with
    | delay => exact absurd (.inl rfl) h
    | sound => exact absurd (.inr rfl) h
    | _ => rfl
  | _ => exact absurd hdirect id

/-! ## Histories -/

/-- What differs at the end of a history was written at some point of it. -/
theorem writes_of_not_same (hm : m.Sized) {history : List Operation}
    (hdirect : ∀ op ∈ history, op.Direct) {p : Place} (h : ¬ p.Same m (after history m)) :
    ∃ earlier op later, history = earlier ++ op :: later ∧ op.Writes (after earlier m) p := by
  induction history generalizing m with
  | nil => exact absurd (p.same_refl m) h
  | cons op history ih =>
    obtain ⟨hop, hothers⟩ := List.forall_mem_cons.mp hdirect
    by_cases hwrites : op.Writes m p
    · exact ⟨[], op, history, rfl, hwrites⟩
    · have hrest : ¬ p.Same (op.apply m).state (after history (op.apply m).state) := fun hsame =>
        h ((same_apply hm hop hwrites).trans hsame)
      obtain ⟨earlier, op', later, rfl, hlater⟩ := ih (sized_apply op hm) hothers hrest
      exact ⟨op :: earlier, op', later, rfl, hlater⟩

/-- Nothing that uses a machine directly writes its switches. -/
theorem not_writes_switches (m : Machine ρ) {op : Operation} (hdirect : op.Direct) :
    ¬ op.Writes m .switches := by
  have hperformed : ¬ ∃ i, op.performed? m = some i ∧ i.Writes m .switches := by
    rintro ⟨i, -, hi⟩
    cases i <;> exact hi
  cases op with
  | step | executeWord => exact hperformed
  | setRegister => exact fun h => nomatch h
  | tick => exact fun h => h.elim nofun nofun
  | _ => exact absurd hdirect id

theorem switches_step (hm : m.Sized) : m.step.state.switches = m.switches :=
  same_step hm (not_writes_switches m (show Operation.step.Direct from trivial))

/-- **Every place has its own writers.**  Take a reachable machine and use it directly, for as long as you
like, with operations that may fail.  A place that is not what it was has been written by one of them, as
it stood then: an instruction that it carried out with success, with the address and the registers of
that moment, or setting this register, or a tick.  The switches are what they were. -/
theorem own_writers {m : Machine ρ} (hm : m.Reachable) {history : List Operation}
    (hdirect : ∀ op ∈ history, op.Direct) :
    (∀ p : Place, ¬ p.Same m (after history m) → ∃ earlier op later,
      history = earlier ++ op :: later ∧ op.Writes (after earlier m) p)
    ∧ (after history m).switches = m.switches := by
  refine ⟨fun p h => writes_of_not_same hm.sized hdirect h, ?_⟩
  refine Classical.byContradiction fun hne => ?_
  obtain ⟨earlier, op, later, rfl, hwrites⟩ :=
    writes_of_not_same (p := .switches) hm.sized hdirect hne
  exact not_writes_switches _ (hdirect op (by simp)) hwrites

/-- The last of the digits of 207 is written at 0x125, by `f133` with I at 0x123. -/
theorem own_writers_last_digit :
    let m : Machine Stepper := powerOn (Stepper.mk 0 1)
    let history : List Operation :=
      [.setRegister 1 207, .executeWord 0xa123, .executeWord 0xf133, .tick]
    m.Reachable ∧ (∀ op ∈ history, op.Direct)
    ∧ m.memory.bytes[0x125]? = some 0 ∧ (after history m).memory.bytes[0x125]? = some 7
    ∧ (∃ earlier op later, history = earlier ++ op :: later
      ∧ op.Writes (after earlier m) (.byte 0x125))
    ∧ (after history m).switches = m.switches := by
  intro m history
  have hwords : Instruction.ofWord? 0xa123 = some (.setIndex 0x123)
      ∧ Instruction.ofWord? 0xf133 = some (.storeDecimal 1) := by decide
  have hdirect : ∀ op ∈ history, op.Direct := by
    simp [history, Operation.Direct]
  have hpoint : ∀ n : Machine Stepper, (n.executeWord 0xa123).state = { n with index := 0x123 } := by
    intro n
    rw [executeWord, hwords.1]
    rfl
  have hstore : ∀ n : Machine Stepper, n.memory.length = memorySize → n.index = 0x123 →
      n.v.get 1 = 207 → (n.executeWord 0xf133).state.memory = n.memory.splice 0x123 [2, 0, 7] := by
    intro n hlength hindex hv
    rw [executeWord, hwords.2]
    show (n.storeBlock (decimalDigits (n.v.get 1))).state.memory = _
    rw [hv, storeBlock_eq, hindex, hlength, if_pos (by decide)]
    rfl
  have hafter : ∀ n : Machine Stepper, n.memory.length = memorySize →
      (after history n).memory.bytes[0x125]? = some 7 := by
    intro n hlength
    have hv : (n.v.set 1 207)[1] = 207 := Vector.getElem_set_self (by decide)
    have hmemory : (after history n).memory = n.memory.splice 0x123 [2, 0, 7] := by
      show (((n.setRegister 1 207).state.executeWord 0xa123).state.executeWord
        0xf133).state.memory = _
      rw [hpoint]
      exact hstore { n with v := n.v.set 1 207, index := 0x123 } hlength rfl hv
    rw [hmemory]
    show (Memory.overwrite n.memory.bytes 0x123 [2, 0, 7])[0x125]? = _
    have hsize : n.memory.bytes.size = memorySize := hlength
    rw [Memory.getElem?_overwrite, hsize, if_pos (by decide)]
    rfl
  have hreach : m.Reachable := ⟨Stepper.mk 0 1, [], rfl⟩
  have hbefore : m.memory.bytes[0x125]? = some 0 := Memory.byte_fresh (by decide) (by decide)
  have hend := hafter m Memory.length_fresh
  have hdiffers : ¬ Place.Same m (after history m) (.byte 0x125) := by
    intro hsame
    have hequal : (some 7 : Option UInt8) = some 0 := hend.symm.trans (Eq.trans hsame hbefore)
    cases hequal
  obtain ⟨hwriters, hswitches⟩ := own_writers hreach hdirect
  exact ⟨hreach, hdirect, hbefore, hend, hwriters _ hdiffers, hswitches⟩

end Machine

end Chip8
