/-
  How a row of steps ends.

  `Machine.steps` asks for one step after another, up to the first that fails.  It tells nothing about the
  single steps, so here they are asked for one by one, as the owner of a machine may (`Machine.stepped`).
  1. **Done and failed** (`steps_eq_done_iff`, `steps_eq_failed_iff`).  A row is done if each of its steps
     is, and it fails if one of them fails and those before it are done.  How many steps would have
     followed makes no difference.
  2. **The crux** (`cycle_of_failsAfter`).  A step that is done counts one cycle, and so does one that fails
     if it found a word.  If it found none, nothing is counted.  So the cycle count tells the steps.
  3. **The timers** (`Leads.eq_lastPut`).  Of all that is carried out in a row, two instructions put
     something into a timer.  What is there in the end is what the last of them put there.
-/
import Chip8.Proofs.Atomicity
import Chip8.Proofs.Deeds
import Chip8.Proofs.FrameCount
import Chip8.Proofs.Timing

namespace Chip8

variable {ρ : Type}

namespace Machine

variable [ByteSource ρ] {m n : Machine ρ} {fault : Fault} {k : Nat}

/-! ## Done and failed -/

/-- Is each of the first k steps done, and does the next one fail? -/
def FailsAfter (m : Machine ρ) (k : Nat) (fault : Fault) (n : Machine ρ) : Prop :=
  (∀ j < k, ∃ l, (stepped j m).step = .done l) ∧ (stepped k m).step = .failed fault n

/-- A row of steps is done if each of its steps is. -/
theorem steps_eq_done_iff :
    steps k m = .done n ↔ (∀ j < k, ∃ l, (stepped j m).step = .done l) ∧ stepped k m = n := by
  induction k generalizing m with
  | zero =>
    constructor
    · intro h
      exact ⟨fun j hj => absurd hj (Nat.not_lt_zero j), Outcome.done.inj h⟩
    · rintro ⟨-, rfl⟩
      rfl
  | succ k ih =>
    rw [steps_succ, stepped_succ]
    cases hstep : m.step with
    | done l =>
      rw [Outcome.done_andThen, Outcome.state_done, ih]
      refine and_congr_left' ⟨fun hothers j hj => ?_, fun hall j hj => ?_⟩
      · cases j with
        | zero => exact ⟨l, hstep⟩
        | succ j =>
          rw [stepped_succ, hstep]
          exact hothers j (Nat.lt_of_succ_lt_succ hj)
      · have hnext := hall (j + 1) (Nat.succ_lt_succ hj)
        rwa [stepped_succ, hstep] at hnext
    | failed fault l =>
      refine iff_of_false nofun fun h => ?_
      obtain ⟨l', hdone⟩ := h.1 0 (Nat.succ_pos k)
      cases hstep.symm.trans hdone

/-- A row of steps fails if one of them does and those before it are done. -/
theorem steps_eq_failed_iff {count : Nat} :
    steps count m = .failed fault n ↔ ∃ k < count, m.FailsAfter k fault n := by
  constructor
  · intro h
    obtain ⟨k, hk, l, hdone, hfail⟩ := steps_failed h
    obtain ⟨hbefore, rfl⟩ := steps_eq_done_iff.mp hdone
    exact ⟨k, hk, hbefore, hfail⟩
  · rintro ⟨k, hk, hbefore, hfail⟩
    exact steps_of_step_failed hk (steps_eq_done_iff.mpr ⟨hbefore, rfl⟩) hfail

/-! ## Cycles -/

/-- A step that fails is counted if it found a word, and a machine that fails is not paused. -/
theorem cycle_of_step_failed (h : m.step = .failed fault n) :
    m.switches.paused = false
    ∧ ((∃ e, m.fetch = .error e) ∧ n.cycle = m.cycle
      ∨ (∃ w, m.fetch = .ok w) ∧ n.cycle = m.cycle + 1) := by
  have hrun : m.switches.paused = false := by
    refine Bool.eq_false_iff.mpr fun hpaused => ?_
    cases (step_of_paused hpaused).symm.trans h
  refine ⟨hrun, ?_⟩
  cases hfetch : m.fetch with
  | error e =>
    obtain ⟨-, rfl⟩ := Outcome.failed.inj ((step_of_fetch_error hrun hfetch).symm.trans h)
    exact .inl ⟨⟨e, rfl⟩, rfl⟩
  | ok w =>
    obtain ⟨-, hcycle, -⟩ := unwritten_executeWord (m.advance w) w
    rw [← step_of_upcoming (upcoming_eq_some_iff.mpr ⟨hrun, hfetch⟩), h] at hcycle
    exact .inr ⟨⟨w, rfl⟩, hcycle⟩

/-- **The cycle count tells the steps**, up to and with the one that failed, unless that found no word. -/
theorem cycle_of_failsAfter (h : m.FailsAfter k fault n) :
    (∃ e, (stepped k m).fetch = .error e) ∧ n.cycle = m.cycle + UInt64.ofNat k
    ∨ (∃ w, (stepped k m).fetch = .ok w) ∧ n.cycle = m.cycle + UInt64.ofNat (k + 1) := by
  obtain ⟨hbefore, hfail⟩ := h
  have hdone : steps k m = .done (stepped k m) := steps_eq_done_iff.mpr ⟨hbefore, rfl⟩
  obtain ⟨hrun, hlast⟩ := cycle_of_step_failed hfail
  have hstart : m.switches.paused = false := by
    refine Bool.eq_false_iff.mpr fun hpaused => ?_
    have hsame : m = stepped k m := Outcome.done.inj ((steps_of_paused hpaused k).symm.trans hdone)
    rw [← hsame, hpaused] at hrun
    cases hrun
  obtain ⟨hcycle, -⟩ := cycle_steps hstart hdone
  rcases hlast with ⟨hnone, hsame⟩ | ⟨hword, hnext⟩
  · exact .inl ⟨hnone, hsame.trans hcycle⟩
  · refine .inr ⟨hword, ?_⟩
    rw [hnext, hcycle, UInt64.add_assoc, UInt64.ofNat_add]
    rfl

end Machine

/-! ## The timers -/

/-- What is left behind by deeds each of which puts in its own value or leaves the old one is what the last
of them put in. -/
theorem Leads.eq_lastPut [ByteSource ρ] {α : Type} {view : Machine ρ → α} {puts : Deed ρ → Option α}
    (hputs : ∀ d, view d.after = (puts d).getD (view d.before)) {a b : α} {log : List (Deed ρ)}
    (h : Leads view a log b) : b = (lastPut puts log).getD a := by
  have hlast : some b = (lastPut puts log).or (some a) := by
    refine (h.map some).eq_or_lastPut fun d => ?_
    rw [hputs, Option.or_some]
  rw [Option.or_some] at hlast
  exact Option.some.inj hlast

namespace Deed

variable [ByteSource ρ]

/-- What a deed puts into the delay timer — `Fx15` does, and nothing else. -/
def delayPut (d : Deed ρ) : Option UInt8 :=
  match d.instruction with
  | .setDelay x => d.before.v[x]?
  | _ => none

/-- What a deed puts into the sound timer — `Fx18` does, and nothing else. -/
def soundPut (d : Deed ρ) : Option UInt8 :=
  match d.instruction with
  | .setSound x => d.before.v[x]?
  | _ => none

/-- A deed leaves the parts that its instruction does not list. -/
theorem part_same (d : Deed ρ) {p : Part} (h : p ∉ d.instruction.opcode.writes) :
    p.Same d.before d.after := by
  have hsame := Machine.part_perform d.before h
  rwa [d.done] at hsame

theorem delay_eq (d : Deed ρ) : d.after.delay = d.delayPut.getD d.before.delay := by
  obtain ⟨m, i, n, hdone⟩ := d
  cases i with
  | setDelay x =>
    have hset : m.withRegister x (fun x => .done { m with delay := m.v.get x }) = .done n := hdone
    obtain ⟨hx, hend⟩ := Machine.exists_of_withRegister_done hset
    obtain rfl := Outcome.done.inj hend
    show m.v.get ⟨x, hx⟩ = m.v[x]?.getD m.delay
    rw [Vector.getElem?_eq_getElem hx]
    rfl
  | _ =>
    exact part_same (p := .delay) ⟨m, _, n, hdone⟩ fun h => nomatch Opcode.eq_setDelay_of_mem_writes h

theorem sound_eq (d : Deed ρ) : d.after.sound = d.soundPut.getD d.before.sound := by
  obtain ⟨m, i, n, hdone⟩ := d
  cases i with
  | setSound x =>
    have hset : m.withRegister x (fun x => .done { m with sound := m.v.get x }) = .done n := hdone
    obtain ⟨hx, hend⟩ := Machine.exists_of_withRegister_done hset
    obtain rfl := Outcome.done.inj hend
    show m.v.get ⟨x, hx⟩ = m.v[x]?.getD m.sound
    rw [Vector.getElem?_eq_getElem hx]
    rfl
  | _ =>
    exact part_same (p := .sound) ⟨m, _, n, hdone⟩ fun h => nomatch Opcode.eq_setSound_of_mem_writes h

end Deed

namespace Machine

variable [ByteSource ρ] {m : Machine ρ}

/-- A row of steps leaves in the timers what its instructions last put there. -/
theorem timers_steps (hm : m.Sized) (count : Nat) :
    (steps count m).state.delay = (lastPut Deed.delayPut (m.deedsOfSteps count)).getD m.delay
    ∧ (steps count m).state.sound = (lastPut Deed.soundPut (m.deedsOfSteps count)).getD m.sound := by
  have hdelay : Leads Machine.delay m.delay (m.deedsOfSteps count) (steps count m).state.delay :=
    leads_steps (fun _ _ => rfl) hm count
  have hsound : Leads Machine.sound m.sound (m.deedsOfSteps count) (steps count m).state.sound :=
    leads_steps (fun _ _ => rfl) hm count
  exact ⟨hdelay.eq_lastPut Deed.delay_eq, hsound.eq_lastPut Deed.sound_eq⟩

/-- **A row of steps ends with the first that fails.**  Take any reachable machine.
  * Some steps and some more are the first of them and then, if these were done, the others.
  * A row of steps fails exactly if for some k, smaller than their number, the first k steps are done and
    the next one fails; and so does a run of that many steps, at whatever pace.
  * Then every row of more than k steps ends with this same fault, which is an error, and leaves this same
    machine.  It has counted k cycles if the step that failed found no word, and k + 1 otherwise.
  * If a row of steps is done, it has counted their number, unless the machine is paused.  If it is, nothing
    has changed.
  * Whether it is done or fails, each timer has in the end what the last instruction put there that was
    carried out and sets this timer, and what it had at first if there was none. -/
theorem row_of_steps (hm : m.Reachable) :
    (∀ a b, steps (a + b) m = (steps a m).andThen (steps b))
    ∧ (∀ count fault n, steps count m = .failed fault n ↔ ∃ k < count, m.FailsAfter k fault n)
    ∧ (∀ pace count fault n, Emulator.runSteps ⟨m, pace⟩ count = .failed fault ⟨n, pace⟩
      ↔ ∃ k < count, m.FailsAfter k fault n)
    ∧ (∀ k fault n, m.FailsAfter k fault n → (∃ e, fault = .error e)
      ∧ (∀ count, k < count → steps count m = .failed fault n)
      ∧ (∀ e, (stepped k m).fetch = .error e → n.cycle.toNat = (m.cycle.toNat + k) % UInt64.size)
      ∧ ∀ w, (stepped k m).fetch = .ok w → n.cycle.toNat = (m.cycle.toNat + (k + 1)) % UInt64.size)
    ∧ (∀ count n, steps count m = .done n →
      (m.switches.paused = false → n.cycle.toNat = (m.cycle.toNat + count) % UInt64.size)
      ∧ (m.switches.paused = true → n = m))
    ∧ (∀ pace count, Emulator.runSteps ⟨m, pace⟩ count = (steps count m).map fun n => ⟨n, pace⟩)
    ∧ ∀ count,
      (steps count m).state.delay = (lastPut Deed.delayPut (m.deedsOfSteps count)).getD m.delay
      ∧ (steps count m).state.sound = (lastPut Deed.soundPut (m.deedsOfSteps count)).getD m.sound := by
  refine ⟨fun a b => steps_add a b m, fun count fault n => steps_eq_failed_iff, fun pace count fault n => ?_,
    fun k fault n hfails => ⟨?_, fun count hk => ?_, fun e hnone => ?_, fun w hword => ?_⟩,
    fun count n hdone => ⟨fun hrun => ?_, fun hpaused => ?_⟩, fun pace count => rfl,
    timers_steps hm.sized⟩
  · rw [← steps_eq_failed_iff, Emulator.runSteps]
    cases steps count m with
    | done l => exact iff_of_false (fun h => by cases h) (fun h => by cases h)
    | failed fault' l =>
      constructor
      · intro h
        obtain ⟨rfl, hstate⟩ := Outcome.failed.inj h
        exact congrArg _ (congrArg Emulator.machine hstate)
      · intro h
        obtain ⟨rfl, rfl⟩ := Outcome.failed.inj h
        rfl
  · have hnext : steps (k + 1) m = .failed fault n :=
      steps_eq_failed_iff.mpr ⟨k, Nat.lt_succ_self k, hfails⟩
    obtain ⟨herror, -⟩ := residue_steps hm.sized hnext
    exact herror
  · exact steps_eq_failed_iff.mpr ⟨k, hk, hfails⟩
  · rcases cycle_of_failsAfter hfails with ⟨-, hcycle⟩ | ⟨⟨w, hword⟩, -⟩
    · exact toNat_cycle_of_eq hcycle
    · cases hnone.symm.trans hword
  · rcases cycle_of_failsAfter hfails with ⟨⟨e, hnone⟩, -⟩ | ⟨-, hcycle⟩
    · cases hnone.symm.trans hword
    · exact toNat_cycle_of_eq hcycle
  · exact toNat_cycle_of_eq (cycle_steps hrun hdone).1
  · exact Outcome.done.inj (hdone.symm.trans (steps_of_paused hpaused count))

/-- Nine is put into the delay timer, and a jump to the last byte follows.  The third step finds no word
there, so every longer row of steps ends with it, after two cycles. -/
theorem row_of_steps_third_fails :
    let history : List Operation := [.load [0xf3, 0x15, 0x1f, 0xff], .setRegister 3 9]
    let m : Machine Stepper := (powerOn (Stepper.mk 0 1)).after history
    m.Reachable ∧ ∃ n, m.FailsAfter 2 (.error (.invalidAddress 0x1000)) n
      ∧ (∀ count, 2 < count → steps count m = .failed (.error (.invalidAddress 0x1000)) n)
      ∧ n.cycle.toNat = 2 ∧ n.delay = 9 ∧ steps (1 + 1) m = .done n := by
  intro history m
  have hreachable : m.Reachable := ⟨_, history, rfl⟩
  obtain ⟨memory, hload, hloaded⟩ := load_powerOn (Stepper.mk 0 1) [0xf3, 0x15, 0x1f, 0xff] (by decide)
  let first : Machine Stepper := { powerOn (Stepper.mk 0 1) with memory := memory }.setV 3 9
  let second : Machine Stepper := { first.advance 0xf315 with delay := 9 }
  let last : Machine Stepper := { second.advance 0x1fff with pc := 0xfff }
  have hm : m = first := by
    show (((powerOn (Stepper.mk 0 1)).load [0xf3, 0x15, 0x1f, 0xff]).state.setRegister 3 9).state = _
    rw [hloaded]
    rfl
  have htimer : Instruction.ofWord? 0xf315 = some (.setDelay 3) := by decide
  have hjump : Instruction.ofWord? 0x1fff = some (.jump 0xfff) := by decide
  have hfirst : m.step = .done second := by
    have hword : first.upcoming = some 0xf315 :=
      upcoming_eq_some_iff.mpr ⟨rfl, fetch_load hload (k := 0) rfl rfl rfl rfl⟩
    rw [hm, step_of_upcoming hword, executeWord, htimer]
    rfl
  have hsecond : second.step = .done last := by
    have hword : second.upcoming = some 0x1fff :=
      upcoming_eq_some_iff.mpr ⟨rfl, fetch_load hload (k := 2) rfl rfl rfl rfl⟩
    rw [step_of_upcoming hword, executeWord, hjump]
    rfl
  have hend : last.fetch = .error (.invalidAddress 0x1000) :=
    fetch_of_last ((Memory.length_load hload).trans Memory.length_fresh) rfl
  have hrow : steps (1 + 1) m = .done last := by
    rw [steps_add, steps_succ, hfirst]
    show steps 1 second = _
    rw [steps_succ, hsecond]
    rfl
  obtain ⟨hbefore, hlast⟩ := steps_eq_done_iff.mp hrow
  have hfails : m.FailsAfter 2 (.error (.invalidAddress 0x1000)) last := by
    refine ⟨hbefore, ?_⟩
    rw [hlast]
    exact step_of_fetch_error rfl hend
  obtain ⟨-, -, -, hfailing, -⟩ := row_of_steps hreachable
  obtain ⟨-, hsame, hcycle, -⟩ := hfailing _ _ _ hfails
  have hzero : m.cycle = 0 := by rw [hm]; rfl
  have htwo := hcycle _ (hlast ▸ hend)
  rw [hzero] at htwo
  exact ⟨hreachable, last, hfails, hsame, htwo, rfl, hrow⟩

end Machine

end Chip8
