/-
  Bytes that are never read.

  A step reads two bytes to know what to do, and two instructions read more of them: a sprite, as far
  down as the screen goes, and the values of v0 to vX (`Machine.Footprint`).  Whatever else stands in
  memory makes no difference to it.
  1. **One machine, two memories** (`step_withMemory`).  With other bytes outside of the footprint a step
     ends in the same way and leaves the same, up to memory.  Most instructions do not look at memory, so
     that is `perform_map`; the two that read see the same block; and the two that store put the same
     block over either memory.
  2. **Two machines** (`Machine.Twin`).  Give the first one the memory of the second, and the two compare
     equal, so what is known of alike machines applies.  As each draws the bytes that the other draws, they
     are twins again after the step (`Twin.step`).
  3. **A run** (`unread_bytes`) is this step after step.  A byte that differs at some point has differed
     before that, and was not written.
-/
import Chip8.Proofs.Alike
import Chip8.Proofs.Reads
import Chip8.Proofs.Writers

namespace Chip8

variable {ρ ρ' : Type}

/-! ## Comparing -/

/-- A log agrees with itself. -/
theorem Draw.agree_refl (log : List Draw) : Draw.Agree log log := by
  induction log with
  | nil => exact nofun
  | cons d log ih => exact List.forall_mem_cons.mpr ⟨rfl, ih⟩

/-- Comparing equal is being alike, with the same switches. -/
theorem Machine.same_iff {m : Machine ρ} {n : Machine ρ'} :
    m.same n = true ↔ m.untraced.same n.untraced = true ∧ m.switches = n.switches := by
  simp only [same, untraced, Bool.and_eq_true, beq_iff_eq]
  constructor
  · intro h
    simp only [h, and_self]
  · intro h
    simp only [h, and_self]

/-! ## Other bytes -/

/-- A word is made of two bytes. -/
theorem Memory.word_congr {m n : Memory} {address : Nat}
    (hhigh : n.bytes[address]? = m.bytes[address]?)
    (hlow : n.bytes[address + 1]? = m.bytes[address + 1]?) : n.word address = m.word address := by
  unfold word get
  rw [hhigh, hlow]

/-- Memories of one length that have the same bytes in a block are read alike there. -/
theorem Memory.slice_congr {m n : Memory} {start count : Nat} (hlength : n.length = m.length)
    (h : start + count ≤ m.length →
      ∀ a, start ≤ a → a < start + count → n.bytes[a]? = m.bytes[a]?) :
    n.slice start (start + count) = m.slice start (start + count) := by
  rw [slice_add, slice_add, hlength]
  by_cases hin : start + count ≤ m.length
  · rw [if_pos hin, if_pos hin]
    refine congrArg Except.ok (List.ext_getElem? fun k => ?_)
    have hm : start + count ≤ m.bytes.size := hin
    have hn : start + count ≤ n.bytes.size := Nat.le_trans hin (Nat.le_of_eq hlength.symm)
    rw [Array.getElem?_toList, Array.getElem?_toList, Array.getElem?_extract,
      Array.getElem?_extract, Nat.min_eq_left hm, Nat.min_eq_left hn]
    by_cases hk : k < start + count - start
    · rw [if_pos hk, if_pos hk]
      exact h hin (start + k) (by omega) (by omega)
    · rw [if_neg hk, if_neg hk]
  · rw [if_neg hin, if_neg hin]

namespace Machine

/-- The machine with another memory. -/
def withMemory (memory : Memory) (m : Machine ρ) : Machine ρ := { m with memory := memory }

theorem same_withMemory {p : Part} (h : p ≠ .memory) (memory : Memory) (m : Machine ρ) :
    p.Same m (m.withMemory memory) := by
  cases p
  case memory => exact absurd rfl h
  all_goals rfl

theorem carried_withMemory {p : Part} (h : p ≠ .memory) (memory : Memory) :
    p.Carried (withMemory (ρ := ρ) memory) := by
  cases p
  case memory => exact absurd rfl h
  all_goals
    intro m n part hm
    subst hm
    rfl

end Machine

/-- The bytes that an instruction reads. -/
def Instruction.Reads (m : Machine ρ) : Instruction → Nat → Prop
  | draw _ y rows, a => m.index.toNat ≤ a
      ∧ a < m.index.toNat + min rows.toNat (32 - (m.v[y]?.getD 0).toNat % 32)
  | loadRegisters x, a => m.index.toNat ≤ a ∧ a < m.index.toNat + x + 1
  | _, _ => False

/-- Which bytes an instruction writes depends on I alone. -/
theorem Instruction.writes_byte_congr {m : Machine ρ} {n : Machine ρ'} (hindex : m.index = n.index)
    (i : Instruction) (a : Nat) : i.Writes m (.byte a) ↔ i.Writes n (.byte a) := by
  cases i <;> simp only [Writes, hindex]

namespace Machine

variable {m : Machine ρ} {memory : Memory}

/-- A sprite is drawn alike if its rows on the screen are the same. -/
theorem drawSprite_withMemory (hm : m.Sized) (hlength : memory.length = m.memory.length)
    {x y : Fin 16} {rows : UInt8} (hread : ∀ n, m.drawSprite x y rows = .done n →
      ∀ a, m.index.toNat ≤ a → a < m.index.toNat + min rows.toNat (32 - (m.v.get y).toNat % 32) →
        memory.bytes[a]? = m.memory.bytes[a]?) :
    (m.withMemory memory).drawSprite x y rows
      = (m.drawSprite x y rows).map (withMemory memory) := by
  refine (drawSprite_map rfl x y rows ?_ rfl rfl (carried_withMemory (p := .screen) (by decide) _)
    (carried_withMemory (p := .registers) (by decide) _)).symm
  rintro count rfl
  refine Memory.slice_congr hlength fun hin a hfrom hto => ?_
  obtain ⟨hit, screen, -, hdraw⟩ := drawSprite_of_slice hm x y rows
    ((m.memory.slice_add _ _).trans (if_pos hin))
  exact hread _ hdraw a hfrom hto

/-- Registers are loaded alike if their values are the same. -/
theorem loadRegisters_withMemory (hlength : memory.length = m.memory.length) {x : Fin 16}
    (hread : ∀ n, m.loadRegisters x = .done n →
      ∀ a, m.index.toNat ≤ a → a < m.index.toNat + x + 1 →
        memory.bytes[a]? = m.memory.bytes[a]?) :
    (m.withMemory memory).loadRegisters x = (m.loadRegisters x).map (withMemory memory) := by
  refine (loadRegisters_map rfl x ?_ rfl
    (carried_withMemory (p := .registers) (by decide) _)).symm
  rw [Nat.add_assoc]
  refine Memory.slice_congr hlength fun hin a hfrom hto => ?_
  exact hread _ ((m.loadRegisters_eq x).trans (if_pos hin)) a hfrom hto

/-- A block that is stored is the same in either memory. -/
theorem storeBlock_withMemory (hlength : memory.length = m.memory.length) (block : List UInt8) :
    ∃ memory', (m.withMemory memory).storeBlock block
        = (m.storeBlock block).map (withMemory memory')
      ∧ ∀ n, m.storeBlock block = .done n → ∀ a, m.index.toNat ≤ a →
        a < m.index.toNat + block.length → memory'.bytes[a]? = n.memory.bytes[a]? := by
  have hcheck : memory.check m.index.toNat (m.index.toNat + block.length)
      = m.memory.check m.index.toNat (m.index.toNat + block.length) := by
    rw [Memory.check_add, Memory.check_add, hlength]
  unfold storeBlock
  dsimp only [withMemory]
  rw [hcheck]
  cases m.memory.check m.index.toNat (m.index.toNat + block.length) with
  | error e => exact ⟨memory, rfl, fun n h => nomatch h⟩
  | ok _ =>
    refine ⟨memory.splice m.index.toNat block, rfl, fun n h a hfrom hto => ?_⟩
    obtain rfl := Outcome.done.inj h
    have hsize : memory.bytes.size = m.memory.bytes.size := hlength
    show (Memory.overwrite memory.bytes m.index.toNat block)[a]?
      = (Memory.overwrite m.memory.bytes m.index.toNat block)[a]?
    rw [Memory.getElem?_overwrite, Memory.getElem?_overwrite, hsize]
    by_cases ha : a < m.memory.bytes.size
    · rw [if_pos ⟨hfrom, hto, ha⟩, if_pos ⟨hfrom, hto, ha⟩]
    · rw [Array.getElem?_eq_none (by omega), Array.getElem?_eq_none (by omega)]

variable [ByteSource ρ]

/-- **An instruction that finds the bytes it reads does the same**, and what it stores is the same. -/
theorem perform_withMemory (hm : m.Sized) (hlength : memory.length = m.memory.length)
    {i : Instruction} (hi : i.InRange) (hread : ∀ n, m.perform i = .done n →
      ∀ a, i.Reads m a → memory.bytes[a]? = m.memory.bytes[a]?) :
    ∃ memory', (m.withMemory memory).perform i = (m.perform i).map (withMemory memory')
      ∧ ∀ n, m.perform i = .done n → ∀ a, i.Writes m (.byte a) →
        memory'.bytes[a]? = n.memory.bytes[a]? := by
  by_cases hmemory : Part.memory ∈ i.opcode.reads
  · obtain ⟨hx, hy⟩ := hi
    cases i <;> simp [Instruction.opcode, Opcode.reads] at hmemory <;>
      simp only [Instruction.operand] at hx hy <;>
      simp only [perform, withRegister_of_lt, hx, hy] at hread ⊢
    case draw x y rows =>
      refine ⟨memory, drawSprite_withMemory hm hlength fun n hn a hfrom hto => ?_,
        fun n _ a h => h.elim⟩
      refine hread n hn a ⟨hfrom, ?_⟩
      rw [Vector.getElem?_eq_getElem hy]
      exact hto
    case loadRegisters x =>
      exact ⟨memory, loadRegisters_withMemory hlength fun n hn a hfrom hto =>
        hread n hn a ⟨hfrom, hto⟩, fun n _ a h => h.elim⟩
    case storeDecimal x =>
      obtain ⟨memory', hstore, hbytes⟩ :=
        storeBlock_withMemory hlength (decimalDigits (m.v.get ⟨x, hx⟩))
      exact ⟨memory', hstore, fun n hn a h => hbytes n hn a h.1 h.2⟩
    case storeRegisters x =>
      obtain ⟨memory', hstore, hbytes⟩ :=
        storeBlock_withMemory hlength (m.registersUpTo ⟨x, hx⟩)
      rw [length_registersUpTo] at hbytes
      exact ⟨memory', hstore, fun n hn a h => hbytes n hn a h.1 (Nat.lt_succ_of_le h.2)⟩
  · -- What does not look at memory does not store anything either.
    have hwrites : Part.memory ∉ i.opcode.writes ∧ ∀ a, ¬ i.Writes m (.byte a) := by
      cases i <;> simp [Instruction.opcode, Opcode.reads] at hmemory <;>
        simp [Instruction.opcode, Opcode.writes, Instruction.Writes]
    refine ⟨memory, (perform_map rfl (fun p hp => ?_) fun p hp => ?_).symm,
      fun n _ a h => absurd h (hwrites.2 a)⟩
    · refine same_withMemory ?_ memory m
      rintro rfl
      exact hmemory hp
    · refine carried_withMemory ?_ memory
      rintro rfl
      exact hwrites.1 hp

theorem executeWord_withMemory (hm : m.Sized) (hlength : memory.length = m.memory.length)
    {w : UInt16} (hread : ∀ i n, Instruction.ofWord? w = some i → m.executeWord w = .done n →
      ∀ a, i.Reads m a → memory.bytes[a]? = m.memory.bytes[a]?) :
    ∃ memory', (m.withMemory memory).executeWord w = (m.executeWord w).map (withMemory memory')
      ∧ ∀ i n, Instruction.ofWord? w = some i → m.executeWord w = .done n →
        ∀ a, i.Writes m (.byte a) → memory'.bytes[a]? = n.memory.bytes[a]? := by
  unfold executeWord at hread ⊢
  cases hi : Instruction.ofWord? w with
  | none => exact ⟨memory, rfl, fun i n h => nomatch h⟩
  | some i =>
    obtain ⟨memory', hperform, hbytes⟩ := perform_withMemory hm hlength
      (Instruction.inRange_of_ofWord? hi) fun n hn => hread i n hi (by rw [hi]; exact hn)
    refine ⟨memory', hperform, fun j n h hn a hwrites => ?_⟩
    obtain rfl := Option.some.inj h
    exact hbytes n hn a hwrites

/-! ## One step -/

/-- The addresses that the next step reads. -/
def Footprint (m : Machine ρ) (a : Nat) : Prop :=
  a = m.pc.toNat ∨ a = m.pc.toNat + 1
    ∨ ∃ i, Operation.step.performed? m = some i ∧ i.Reads m a

theorem fetch_withMemory (hread : ∀ a, m.Footprint a → memory.bytes[a]? = m.memory.bytes[a]?) :
    (m.withMemory memory).fetch = m.fetch :=
  Memory.word_congr (hread _ (.inl rfl)) (hread _ (.inr (.inl rfl)))

/-- **A step that finds the bytes it reads does the same**, and what it stores is the same. -/
theorem step_withMemory (hm : m.Sized) (hlength : memory.length = m.memory.length)
    (hread : ∀ a, m.Footprint a → memory.bytes[a]? = m.memory.bytes[a]?) :
    ∃ memory', (m.withMemory memory).step = m.step.map (withMemory memory')
      ∧ ∀ a, Operation.step.Writes m (.byte a) →
        memory'.bytes[a]? = m.step.state.memory.bytes[a]? := by
  have hfetch := fetch_withMemory hread
  have hidle : Operation.step.performed? m = none → ∀ a, ¬ Operation.step.Writes m (.byte a) := by
    rintro hnone a ⟨i, hi, -⟩
    rw [hnone] at hi
    cases hi
  obtain ⟨hword, ⟨hstep, hstep'⟩ | ⟨e, hstep, hstep'⟩⟩ | ⟨w, hword, -, hstep, hstep'⟩ :=
    step_cases (m := m) (n := m.withMemory memory) rfl hfetch
  · refine ⟨memory, ?_, fun a h => absurd h (hidle (performed?_of_upcoming_none hword) a)⟩
    rw [hstep, hstep']
    rfl
  · refine ⟨memory, ?_, fun a h => absurd h (hidle (performed?_of_upcoming_none hword) a)⟩
    rw [hstep, hstep']
    rfl
  · obtain ⟨memory', hend, hbytes⟩ := executeWord_withMemory (sized_advance hm w) hlength
      fun i n hi hn a ha => hread a
        (.inr (.inr ⟨i, (performed?_of_done hword (hstep.trans hn)).trans hi, ha⟩))
    refine ⟨memory', ?_, fun a h => ?_⟩
    · rw [hstep, hstep']
      exact hend
    · cases hdone : (m.advance w).executeWord w with
      | failed fault n =>
        exact absurd h (hidle (performed?_of_failed (hstep.trans hdone)) a)
      | done n =>
        obtain ⟨i, hi, hwrites⟩ := h
        rw [performed?_of_done hword (hstep.trans hdone)] at hi
        rw [hstep.trans hdone]
        exact hbytes i n hi hdone a hwrites

/-! ## Bytes to come -/

theorem random_executeWord (m : Machine ρ) (w : UInt16) : (m.executeWord w).state.random
    = ByteSource.skip (m.drawsOfWord w).length m.random := by
  unfold executeWord drawsOfWord
  cases hi : Instruction.ofWord? w with
  | none => rfl
  | some i =>
    have hx := (Instruction.inRange_of_ofWord? hi).1
    cases i with
    | random x mask =>
      show (m.perform (.random x mask)).state.random = _
      rw [perform, withRegister_of_lt (r := x) hx]
      rfl
    | _ => exact part_perform m (p := .random) (by simp [Instruction.opcode, Opcode.writes])

/-- A step leaves the source as much further on as it has drawn. -/
theorem random_step (m : Machine ρ) :
    m.step.state.random = ByteSource.skip m.drawsOfStep.length m.random := by
  unfold drawsOfStep
  cases hword : m.upcoming with
  | none =>
    rw [step_of_upcoming_none hword]
    rfl
  | some w =>
    rw [step_of_upcoming hword]
    exact random_executeWord (m.advance w) w

theorem drawsOfStep_congr [ByteSource ρ'] {n : Machine ρ'} (hword : m.upcoming = n.upcoming)
    (hbyte : ByteSource.byteAt m.random 0 = ByteSource.byteAt n.random 0) :
    m.drawsOfStep = n.drawsOfStep := by
  have hnext : (ByteSource.next m.random).1 = (ByteSource.next n.random).1 := hbyte
  unfold drawsOfStep drawsOfWord
  rw [hword, hnext]

/-! ## Twins -/

/-- Two machines compare equal but for their memories, and have the same random bytes to come. -/
structure Twin [ByteSource ρ'] (m : Machine ρ) (n : Machine ρ') : Prop where
  same : (m.withMemory n.memory).same n = true
  bytes : ∀ k, ByteSource.byteAt m.random k = ByteSource.byteAt n.random k

section Pairs

variable [ByteSource ρ'] {n : Machine ρ'}

theorem Twin.alike (h : m.Twin n) (hm : m.Sized) (hn : n.Sized) :
    (m.withMemory n.memory).Alike n :=
  ⟨(same_iff.mp h.same).1, hm.stack, hn.stack⟩

/-- A step of either carries out the same, if it has the same word and ends in the same way. -/
theorem performed?_congr (hword : m.upcoming = n.upcoming) (hfault : m.step.fault? = n.step.fault?) :
    Operation.step.performed? m = Operation.step.performed? n := by
  cases hm : m.step with
  | done m' =>
    cases hn : n.step with
    | done n' =>
      show m.executed?.bind Instruction.ofWord? = n.executed?.bind Instruction.ofWord?
      rw [executed?_of_done hm, executed?_of_done hn, hword]
    | failed fault n' => rw [hm, hn] at hfault; cases hfault
  | failed fault m' =>
    cases hn : n.step with
    | done n' => rw [hm, hn] at hfault; cases hfault
    | failed fault n' => rw [performed?_of_failed hm, performed?_of_failed hn]

/-- **Twins stay twins** in a step that finds the same bytes in both. -/
theorem Twin.step (h : m.Twin n) (hm : m.Sized) (hn : n.Sized)
    (hread : ∀ a, m.Footprint a → n.memory.bytes[a]? = m.memory.bytes[a]?) :
    m.step.fault? = n.step.fault? ∧ m.step.state.Twin n.step.state
    ∧ ∀ a, n.step.state.memory.bytes[a]? ≠ m.step.state.memory.bytes[a]?
      ↔ n.memory.bytes[a]? ≠ m.memory.bytes[a]? ∧ ¬ Operation.step.Writes m (.byte a) := by
  obtain ⟨memory', hstep, hbytes⟩ := step_withMemory hm (hn.memory.trans hm.memory.symm) hread
  have halike := h.alike hm hn
  have hswitches : m.switches = n.switches := (same_iff.mp h.same).2
  have hword : m.upcoming = n.upcoming := by
    rw [← halike.fetch_eq.2.2, upcoming, upcoming, fetch_withMemory hread]
    rfl
  have hdraws : (m.withMemory n.memory).drawsOfStep = n.drawsOfStep :=
    drawsOfStep_congr halike.fetch_eq.2.2 (h.bytes 0)
  have hdrawn : m.drawsOfStep.length = n.drawsOfStep.length :=
    congrArg List.length (drawsOfStep_congr hword (h.bytes 0))
  -- The first machine, with the memory of the second, ends as the second does.
  have hend := alike_step halike (hdraws ▸ Draw.agree_refl _)
  have hfault : m.step.fault? = n.step.fault? := by
    rw [← hend.fault, hstep, Outcome.fault?_map]
  have hstate := hend.state
  rw [hstep, Outcome.state_map] at hstate
  have hmemory : memory' = n.step.state.memory := congrArg Machine.memory (hstate.core_eq 0)
  rw [hmemory] at hstate hbytes
  refine ⟨hfault, ⟨same_iff.mpr ⟨hstate.same, ?_⟩, fun k => ?_⟩, fun a => ?_⟩
  · exact (switches_step hm).trans (hswitches.trans (switches_step hn).symm)
  · rw [random_step, random_step, ByteSource.byteAt_skip, ByteSource.byteAt_skip, hdrawn, h.bytes]
  · have hindex : m.index = n.index := congrArg Machine.index (halike.core_eq 0)
    by_cases hwrites : Operation.step.Writes m (.byte a)
    · exact iff_of_false (fun hne => hne (hbytes a hwrites)) fun hboth => hboth.2 hwrites
    · have hleft : ¬ Operation.step.Writes n (.byte a) := by
        rintro ⟨i, hi, hw⟩
        refine hwrites ⟨i, (performed?_congr hword hfault).trans hi, ?_⟩
        exact (i.writes_byte_congr hindex a).mpr hw
      have hkept : m.step.state.memory.bytes[a]? = m.memory.bytes[a]? := same_step hm hwrites
      have hkept' : n.step.state.memory.bytes[a]? = n.memory.bytes[a]? := same_step hn hleft
      rw [hkept, hkept', and_iff_left hwrites]

theorem sized_stepped (hm : m.Sized) (k : Nat) : (stepped k m).Sized := by
  induction k generalizing m with
  | zero => exact hm
  | succ k ih => exact ih (sized_step hm)

/-! ## A run -/

/-- Twins stay twins in steps that find the same bytes in both, end each of them alike, and no difference
between their memories is new. -/
theorem Twin.stepped (h : m.Twin n) (hm : m.Sized) (hn : n.Sized) {k : Nat}
    (hread : ∀ j < k, ∀ a, (Machine.stepped j m).Footprint a →
      n.memory.bytes[a]? = m.memory.bytes[a]?) :
    (Machine.stepped k m).Twin (Machine.stepped k n)
    ∧ (∀ j < k, (Machine.stepped j m).step.fault? = (Machine.stepped j n).step.fault?)
    ∧ ∀ a, (Machine.stepped k n).memory.bytes[a]? ≠ (Machine.stepped k m).memory.bytes[a]?
      ↔ n.memory.bytes[a]? ≠ m.memory.bytes[a]?
        ∧ ∀ j < k, ¬ Operation.step.Writes (Machine.stepped j m) (.byte a) := by
  induction k with
  | zero =>
    exact ⟨h, fun j hj => absurd hj (Nat.not_lt_zero j),
      fun a => (and_iff_left fun j hj => absurd hj (Nat.not_lt_zero j)).symm⟩
  | succ k ih =>
    obtain ⟨htwin, hfaults, hdiffer⟩ := ih fun j hj => hread j (Nat.lt_succ_of_lt hj)
    have hfound : ∀ a, (Machine.stepped k m).Footprint a →
        (Machine.stepped k n).memory.bytes[a]? = (Machine.stepped k m).memory.bytes[a]? := by
      -- A difference would be one from the start.
      intro a ha
      refine Decidable.of_not_not fun hne => ?_
      exact ((hdiffer a).mp hne).1 (hread k (Nat.lt_succ_self k) a ha)
    obtain ⟨hfault, hnext, hstep⟩ := htwin.step (sized_stepped hm k) (sized_stepped hn k) hfound
    rw [stepped_succ_last, stepped_succ_last]
    refine ⟨hnext, Nat.forall_lt_succ_right.mpr ⟨hfaults, hfault⟩, fun a => ?_⟩
    rw [hstep, hdiffer, Nat.forall_lt_succ_right, and_assoc]

/-- **Bytes that are never read cannot matter.**  Take two machines that compare equal but for their
memories and have the same random bytes to come, and so many steps of the first.  If the memories agree
wherever those steps read, then each step ends in the same way on both, and after each of them the
machines compare equal again but for their memories, which differ where they differed at the start and
the run did not write. -/
theorem unread_bytes (hm : m.Sized) (hn : n.Sized) (h : m.Twin n) {count : Nat}
    (hread : ∀ k < count, ∀ a, (stepped k m).Footprint a →
      n.memory.bytes[a]? = m.memory.bytes[a]?) :
    (∀ k < count, (stepped k m).step.fault? = (stepped k n).step.fault?)
    ∧ ∀ k ≤ count, (stepped k m).Twin (stepped k n)
      ∧ ∀ a, (stepped k n).memory.bytes[a]? ≠ (stepped k m).memory.bytes[a]?
        ↔ n.memory.bytes[a]? ≠ m.memory.bytes[a]?
          ∧ ∀ j < k, ¬ Operation.step.Writes (stepped j m) (.byte a) := by
  refine ⟨(h.stepped hm hn hread).2.1, fun k hk => ?_⟩
  obtain ⟨htwin, -, hdiffer⟩ :=
    h.stepped hm hn fun j hj => hread j (Nat.lt_of_lt_of_le hj hk)
  exact ⟨htwin, hdiffer⟩

/-- A sprite of two rows that is drawn on the last line: only its first row is read, and the second may be
another one. -/
theorem unread_bytes_clipped :
    let m : Machine Stepper := { ((powerOn (Stepper.mk 0 1)).load
      [0xd0, 0x12, 0x80, 0x00]).state.setV 1 31 with index := 0x202 }
    let n := m.withMemory (m.memory.splice 0x203 [0xff])
    m.Sized ∧ n.Sized ∧ m.Twin n
    ∧ (∀ k < 1, ∀ a, (stepped k m).Footprint a → n.memory.bytes[a]? = m.memory.bytes[a]?)
    ∧ n.memory.bytes[0x203]? ≠ m.memory.bytes[0x203]?
    ∧ Operation.step.performed? m = some (.draw 0 1 2)
    ∧ (stepped 1 m).Twin (stepped 1 n) ∧ m.step.fault? = n.step.fault?
    ∧ (stepped 1 n).memory.bytes[0x203]? ≠ (stepped 1 m).memory.bytes[0x203]? := by
  obtain ⟨memory, hload, hloaded⟩ := load_powerOn (Stepper.mk 0 1) [0xd0, 0x12, 0x80, 0x00] (by decide)
  rw [hloaded, Outcome.state_done]
  intro m n
  have hdraw : Instruction.ofWord? 0xd012 = some (.draw 0 1 2) := by decide
  have hlength : memory.length = memorySize := (Memory.length_load hload).trans Memory.length_fresh
  have hm : m.Sized := ⟨hlength, Screen.size_blank, Nat.zero_le _⟩
  have hn : n.Sized :=
    ⟨(Memory.length_splice memory 0x203 [0xff]).trans hlength, Screen.size_blank, Nat.zero_le _⟩
  have htwin : m.Twin n := ⟨by simp [n, withMemory, same], fun k => rfl⟩
  have hword : m.upcoming = some 0xd012 := upcoming_eq_some_iff.mpr
    ⟨rfl, fetch_load hload (k := 0) rfl rfl rfl (w := 0xd012) (by decide)⟩
  -- Of the two rows there is room for one.
  have hrows : min (2 : UInt8).toNat (32 - (m.v[1]?.getD 0).toNat % 32) = 1 := rfl
  have hperformed : Operation.step.performed? m = some (.draw 0 1 2) := by
    have hslice := (memory.slice_add 0x202 1).trans (if_pos (by rw [hlength]; decide))
    obtain ⟨hit, screen, -, hdone⟩ :=
      drawSprite_of_slice (sized_advance hm 0xd012) 0 1 2 hslice
    have hstep : m.step = .done ((m.advance 0xd012).drawn screen hit) := by
      rw [step_of_upcoming hword, executeWord, hdraw]
      exact hdone
    rw [performed?_of_done hword hstep, hdraw]
  have hread : ∀ k < 1, ∀ a, (stepped k m).Footprint a →
      n.memory.bytes[a]? = m.memory.bytes[a]? := by
    intro k hk a ha
    obtain rfl : k = 0 := by omega
    have hne : a ≠ 0x203 := by
      have hpc : m.pc.toNat = 0x200 := rfl
      have hindex : m.index.toNat = 0x202 := rfl
      obtain h | h | ⟨i, hi, hreads⟩ : m.Footprint a := ha
      · omega
      · omega
      · obtain rfl := Option.some.inj (hperformed.symm.trans hi)
        have hto := hreads.2
        rw [hrows, hindex] at hto
        omega
    show (Memory.overwrite memory.bytes 0x203 [0xff])[a]? = memory.bytes[a]?
    rw [Memory.getElem?_overwrite, if_neg (by simp only [List.length_singleton]; omega)]
  have hdiffer : n.memory.bytes[0x203]? ≠ m.memory.bytes[0x203]? := by
    have hbyte : memory.bytes[programStart + 3]? = some 0 := Memory.byte_load hload rfl
    show (Memory.overwrite memory.bytes 0x203 [0xff])[programStart + 3]?
      ≠ memory.bytes[programStart + 3]?
    have hsize : memory.bytes.size = memorySize := hlength
    rw [Memory.getElem?_overwrite, hsize, if_pos (by decide), hbyte]
    decide
  obtain ⟨hfault, hrun⟩ := unread_bytes hm hn htwin hread
  obtain ⟨hlast, hkept⟩ := hrun 1 (Nat.le_refl 1)
  refine ⟨hm, hn, htwin, hread, hdiffer, hperformed, hlast, hfault 0 Nat.one_pos,
    (hkept 0x203).mpr ⟨hdiffer, ?_⟩⟩
  rintro j hj ⟨i, hi, hwrites⟩
  obtain rfl : j = 0 := by omega
  obtain rfl := Option.some.inj (hperformed.symm.trans hi)
  exact hwrites

end Pairs

end Machine

end Chip8
