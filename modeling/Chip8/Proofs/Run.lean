/-
  Runs of steps.

  `Machine.steps` stops at the first failure.  Whoever calls `Machine.step` again and again need not: a
  failed step has left a machine, and the next step goes on from there (`stepped`).  About every one of
  these steps one can ask
    * which word it has before it, if it has one (`upcoming`);
    * which word it carries out with success (`executed?`), and, over a whole run, how many of a kind
      (`tally`).

  Which word that is depends on memory alone: a step that finds a word stands inside memory
  (`lt_of_fetch`), and where a program was loaded it finds the program (`fetch_load`).
-/
import Chip8.Machine.Step

namespace Chip8

/-! ## Words in memory -/

namespace Memory

variable {m n : Memory} {address : Nat}

/-- A byte is read exactly if it is there. -/
theorem get_eq_ok_iff {b : UInt8} : m.get address = .ok b ↔ m.bytes[address]? = some b := by
  unfold get
  cases m.bytes[address]? with
  | some b' => exact ⟨fun h => congrArg some (Except.ok.inj h), fun h => congrArg _ (Option.some.inj h)⟩
  | none => exact ⟨fun h => (nomatch h), fun h => (nomatch h)⟩

/-- A word is read exactly if both of its bytes are there. -/
theorem word_eq_ok_iff {w : UInt16} : m.word address = .ok w ↔ ∃ high low,
    m.bytes[address]? = some high ∧ m.bytes[address + 1]? = some low ∧ w = Word.ofBytes high low := by
  constructor
  · intro h
    unfold word at h
    cases hhigh : m.get address with
    | error e => rw [hhigh] at h; cases h
    | ok high =>
      cases hlow : m.get (address + 1) with
      | error e => rw [hhigh, hlow] at h; cases h
      | ok low =>
        rw [hhigh, hlow] at h
        cases h
        exact ⟨high, low, get_eq_ok_iff.mp hhigh, get_eq_ok_iff.mp hlow, rfl⟩
  · rintro ⟨high, low, hhigh, hlow, rfl⟩
    unfold word
    rw [get_eq_ok_iff.mpr hhigh, get_eq_ok_iff.mpr hlow]
    rfl

/-- A word that is read lies inside memory. -/
theorem lt_of_word {w : UInt16} (h : m.word address = .ok w) : address + 1 < m.length := by
  obtain ⟨high, low, -, hlow, -⟩ := word_eq_ok_iff.mp h
  exact (Array.getElem?_eq_some_iff.mp hlow).1

/-- A word that does not lie inside memory is reported by the first address outside. -/
theorem word_of_length_le (h : m.length ≤ address + 1) :
    m.word address = .error (.invalidAddress (max address m.length)) := by
  have hnone : ∀ a, m.length ≤ a → m.get a = .error (.invalidAddress a) := by
    intro a ha
    unfold get
    rw [Array.getElem?_eq_none ha]
  unfold word
  cases hhigh : m.get address with
  | error e =>
    have hout : m.length ≤ address := by
      refine Nat.le_of_not_lt fun hin => ?_
      rw [get_eq_ok_iff.mpr (Array.getElem?_eq_getElem hin)] at hhigh
      cases hhigh
    rw [hnone address hout] at hhigh
    rw [Nat.max_eq_left hout, ← hhigh]
    rfl
  | ok high =>
    -- The high byte is the last one of memory.
    have hin : address < m.length := (Array.getElem?_eq_some_iff.mp (get_eq_ok_iff.mp hhigh)).1
    have hlast : address + 1 = m.length := by omega
    rw [hnone (address + 1) h, hlast, Nat.max_eq_right (Nat.le_of_lt hin)]
    rfl

/-- A program stands where it was loaded. -/
theorem byte_load {program : List UInt8} (h : m.load program = .ok n) {j : Nat} {b : UInt8}
    (hj : program[j]? = some b) : n.bytes[programStart + j]? = some b := by
  have hlt : j < program.length := (List.getElem?_eq_some_iff.mp hj).1
  have hroom : programStart + Region.programLength = memorySize := rfl
  obtain ⟨⟨hfits, -⟩, -⟩ := load_eq_ok_iff.mp h
  rw [getElem?_load h, if_pos (by omega), Nat.add_sub_cancel_left, hj]
  rfl

/-- And so do its words. -/
theorem word_load {program : List UInt8} (h : m.load program = .ok n) {k : Nat} {high low : UInt8}
    (hhigh : program[k]? = some high) (hlow : program[k + 1]? = some low) :
    n.word (programStart + k) = .ok (Word.ofBytes high low) :=
  word_eq_ok_iff.mpr ⟨high, low, byte_load h hhigh, byte_load h hlow, rfl⟩

end Memory

namespace Machine

variable {ρ : Type}

theorem lt_of_fetch {m : Machine ρ} {w : UInt16} (h : m.fetch = .ok w) :
    m.pc.toNat + 1 < m.memory.length :=
  Memory.lt_of_word h

/-- A machine that does not stand before two bytes of memory finds nothing. -/
theorem fetch_of_length_le {m : Machine ρ} (h : m.memory.length ≤ m.pc.toNat + 1) :
    m.fetch = .error (.invalidAddress (max m.pc.toNat m.memory.length)) :=
  Memory.word_of_length_le h

/-- A machine that stands before the last byte finds nothing either. -/
theorem fetch_of_last {m : Machine ρ} (hlength : m.memory.length = memorySize) (hpc : m.pc = 0xfff) :
    m.fetch = .error (.invalidAddress memorySize) := by
  have hlast : m.pc.toNat + 1 = memorySize := by
    rw [hpc]
    rfl
  rw [fetch_of_length_le (by omega), hlength, Nat.max_eq_right (by omega)]

/-- A machine that stands in a program finds the words of the program. -/
theorem fetch_load {m : Machine ρ} {old : Memory} {program : List UInt8}
    (hload : old.load program = .ok m.memory) {k : Nat} (hpc : m.pc.toNat = programStart + k)
    {high low : UInt8} (hhigh : program[k]? = some high) (hlow : program[k + 1]? = some low)
    {w : UInt16} (hw : Word.ofBytes high low = w) : m.fetch = .ok w := by
  subst hw
  unfold fetch
  rw [hpc]
  exact Memory.word_load hload hhigh hlow

/-- A machine just switched on takes every program that is not too large. -/
theorem load_powerOn (random : ρ) (program : List UInt8)
    (hfits : program.length ≤ Region.programLength) :
    ∃ memory, Memory.fresh.load program = .ok memory
      ∧ (powerOn random).load program = .done { powerOn random with memory := memory } := by
  have hfull : memorySize ≤ Memory.fresh.length := Nat.le_of_eq Memory.length_fresh.symm
  have hload := Memory.load_eq_ok_iff.mpr ⟨⟨hfits, hfull⟩, rfl⟩
  refine ⟨_, hload, ?_⟩
  unfold load
  rw [show (powerOn random).memory = .fresh from rfl, hload]

/-! ## Cycles -/

/-- A cycle count some cycles later, which may have begun again. -/
theorem toNat_cycle_of_eq {c d : UInt64} {k : Nat} (h : d = c + UInt64.ofNat k) :
    d.toNat = (c.toNat + k) % UInt64.size := by
  rw [h, UInt64.toNat_add, UInt64.toNat_ofNat', Nat.add_mod_mod]

/-! ## One step -/

/-- The word that the next step has before it — none if the machine is paused, or if it does not stand
before two bytes of memory. -/
def upcoming (m : Machine ρ) : Option UInt16 :=
  if m.switches.paused then none
  else
    match m.fetch with
    | .ok w => some w
    | .error _ => none

theorem upcoming_eq_some_iff {m : Machine ρ} {w : UInt16} :
    m.upcoming = some w ↔ m.switches.paused = false ∧ m.fetch = .ok w := by
  unfold upcoming
  by_cases hpaused : m.switches.paused = true
  · simp [hpaused]
  · cases m.fetch <;> simp [hpaused]

variable [ByteSource ρ]

/-- The word that the next step carries out with success. -/
def executed? (m : Machine ρ) : Option UInt16 :=
  match m.step with
  | .done _ => m.upcoming
  | .failed .. => none

/-- A step with a word before it carries that word out. -/
theorem step_of_upcoming {m : Machine ρ} {w : UInt16} (h : m.upcoming = some w) :
    m.step = (m.advance w).executeWord w := by
  obtain ⟨hrun, hfetch⟩ := upcoming_eq_some_iff.mp h
  unfold step
  rw [hrun, hfetch]
  rfl

/-- A paused machine steps without doing anything. -/
theorem step_of_paused {m : Machine ρ} (hpaused : m.switches.paused = true) : m.step = .done m := by
  rw [step, if_pos hpaused]

/-- A step that finds no word reports that, and does nothing else. -/
theorem step_of_fetch_error {m : Machine ρ} (hrun : m.switches.paused = false) {e : Error}
    (hfetch : m.fetch = .error e) : m.step = .failed (.error e) m := by
  unfold step
  rw [hrun, hfetch]
  rfl

/-- A step without one leaves the machine alone. -/
theorem step_of_upcoming_none {m : Machine ρ} (h : m.upcoming = none) : m.step.state = m := by
  unfold upcoming at h
  unfold step
  by_cases hpaused : m.switches.paused = true
  · rw [if_pos hpaused]
    rfl
  · rw [if_neg hpaused] at h ⊢
    cases hfetch : m.fetch with
    | error e => rfl
    | ok w => rw [hfetch] at h; cases h

/-- Two machines that are both paused, or find the same, both stay as they are or both carry out one
word. -/
theorem step_cases {ρ' : Type} [ByteSource ρ'] {m : Machine ρ} {n : Machine ρ'}
    (hpaused : n.switches.paused = m.switches.paused) (hfetch : n.fetch = m.fetch) :
    (m.upcoming = none ∧ ((m.step = .done m ∧ n.step = .done n)
      ∨ ∃ e, m.step = .failed (.error e) m ∧ n.step = .failed (.error e) n))
    ∨ ∃ w, m.upcoming = some w ∧ n.upcoming = some w
      ∧ m.step = (m.advance w).executeWord w ∧ n.step = (n.advance w).executeWord w := by
  by_cases h : m.switches.paused = true
  · exact .inl ⟨if_pos h, .inl ⟨step_of_paused h, step_of_paused (hpaused.trans h)⟩⟩
  · have hrun : m.switches.paused = false := Bool.eq_false_iff.mpr h
    cases hend : m.fetch with
    | error e =>
      refine .inl ⟨?_, .inr ⟨e, step_of_fetch_error hrun hend,
        step_of_fetch_error (hpaused.trans hrun) (hfetch.trans hend)⟩⟩
      rw [upcoming, if_neg h, hend]
    | ok w =>
      have hm : m.upcoming = some w := upcoming_eq_some_iff.mpr ⟨hrun, hend⟩
      have hn : n.upcoming = some w :=
        upcoming_eq_some_iff.mpr ⟨hpaused.trans hrun, hfetch.trans hend⟩
      exact .inr ⟨w, hm, hn, step_of_upcoming hm, step_of_upcoming hn⟩

theorem executed?_of_done {m n : Machine ρ} (h : m.step = .done n) : m.executed? = m.upcoming := by
  unfold executed?
  rw [h]

theorem executed?_of_failed {m n : Machine ρ} {fault : Fault} (h : m.step = .failed fault n) :
    m.executed? = none := by
  unfold executed?
  rw [h]

/-- A word that is carried out was before the step, and the step is done. -/
theorem done_of_executed? {m : Machine ρ} {w : UInt16} (h : m.executed? = some w) :
    m.upcoming = some w ∧ ∃ n, m.step = .done n := by
  cases hstep : m.step with
  | done n => exact ⟨(executed?_of_done hstep).symm.trans h, n, rfl⟩
  | failed fault n => rw [executed?_of_failed hstep] at h; cases h

/-! ## Many steps -/

/-- The machine after a number of steps, whether they are done or fail. -/
def stepped : Nat → Machine ρ → Machine ρ
  | 0, m => m
  | k + 1, m => stepped k m.step.state

/-- How many words of a kind are carried out with success in that many steps. -/
def tally (kind : UInt16 → Bool) : Nat → Machine ρ → Nat
  | 0, _ => 0
  | k + 1, m => (if m.executed?.any kind then 1 else 0) + tally kind k m.step.state

theorem stepped_succ (k : Nat) (m : Machine ρ) : stepped (k + 1) m = stepped k m.step.state := rfl

/-- The last of some steps. -/
theorem stepped_succ_last (k : Nat) (m : Machine ρ) :
    stepped (k + 1) m = (stepped k m).step.state := by
  induction k generalizing m with
  | zero => rfl
  | succ k ih => exact ih m.step.state

theorem tally_succ (kind : UInt16 → Bool) (k : Nat) (m : Machine ρ) : tally kind (k + 1) m
    = (if m.executed?.any kind then 1 else 0) + tally kind k m.step.state := rfl

/-- A row of steps that is done begins with a step that is done. -/
theorem steps_succ_done {k : Nat} {m n : Machine ρ} (h : steps (k + 1) m = .done n) :
    ∃ m', m.step = .done m' ∧ steps k m' = .done n := by
  rw [steps_succ] at h
  cases hstep : m.step with
  | done m' =>
    rw [hstep] at h
    exact ⟨m', rfl, h⟩
  | failed fault m' =>
    rw [hstep] at h
    cases h

end Machine

end Chip8
