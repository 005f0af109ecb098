/-
  Errors are atomic.

  An operation that fails on a reachable machine has found an error, not a crash, and has left next to
  nothing behind (`Operation.Residue`):
    * loading, setting a register and executing a word leave the machine as it was;
    * a step leaves it as it was if the word could not be fetched, and otherwise has moved the program
      counter and the cycle count on, and nothing more;
    * a row of steps leaves what its failing step left, on the machine the steps before had led to.
  The trace is output and not state: there a failing step has written down the word it fetched.
-/
import Chip8.Proofs.Operation

namespace Chip8

variable {ρ : Type}

namespace Machine

/-! ## The operations one by one -/

theorem clean_load {m : Machine ρ} (hm : m.Sized) (program : List UInt8) :
    (m.load program).Clean m := by
  unfold load Memory.load
  by_cases hfits : Region.programLength < program.length
  · rw [if_pos hfits]
    exact Outcome.clean_error
  · have hfull : ¬ m.memory.length < memorySize := by
      rw [hm.memory]
      exact Nat.lt_irrefl _
    rw [if_neg hfits, if_neg hfull]
    exact Outcome.clean_done

theorem clean_setRegister (m : Machine ρ) (r : Nat) (value : UInt8) :
    (m.setRegister r value).Clean m := by
  unfold setRegister
  split
  · exact Outcome.clean_done
  · exact Outcome.clean_error

/-- What a failed step may have changed. -/
def StepResidue (m n : Machine ρ) : Prop :=
  match m.fetch with
  | .error _ => n = m
  | .ok w => n = { m with pc := m.pc + 2, cycle := m.cycle + 1, trace := (m.advance w).trace }

variable [ByteSource ρ]

theorem step_failed {m n : Machine ρ} (hm : m.Sized) {fault : Fault}
    (h : m.step = .failed fault n) : (∃ e, fault = .error e) ∧ m.StepResidue n := by
  unfold step at h
  unfold StepResidue
  by_cases hpaused : m.switches.paused = true
  · rw [if_pos hpaused] at h
    cases h
  · rw [if_neg hpaused] at h
    cases hfetch : m.fetch with
    | error e =>
      rw [hfetch] at h
      cases h
      exact ⟨⟨e, rfl⟩, rfl⟩
    | ok w =>
      -- The word fails on the machine that has already moved on, and leaves that as it is.
      rw [hfetch] at h
      obtain ⟨herror, rfl⟩ := clean_executeWord (sized_advance hm w) w _ _ h
      exact ⟨herror, rfl⟩

/-- If a row of steps fails, the steps before some step are done and that step fails. -/
theorem steps_failed {count : Nat} {m n : Machine ρ} {fault : Fault}
    (h : steps count m = .failed fault n) :
    ∃ k, k < count ∧ ∃ l, steps k m = .done l ∧ l.step = .failed fault n := by
  induction count generalizing m with
  | zero => cases h
  | succ count ih =>
    rw [steps_succ] at h
    cases hstep : m.step with
    | failed fault' n' =>
      rw [hstep] at h
      cases h
      exact ⟨0, Nat.succ_pos _, m, rfl, hstep⟩
    | done m' =>
      rw [hstep] at h
      obtain ⟨k, hk, l, hl, hfail⟩ := ih h
      refine ⟨k + 1, Nat.succ_lt_succ hk, l, ?_, hfail⟩
      rw [steps_succ, hstep]
      exact hl

end Machine

/-! ## All operations -/

variable [ByteSource ρ]

/-- What an operation may have changed if it failed. -/
def Operation.Residue (m n : Machine ρ) : Operation → Prop
  | load _ | setRegister .. | executeWord _ => n = m
  | step => m.StepResidue n
  | steps count => ∃ k, k < count ∧ ∃ l, Machine.steps k m = .done l ∧ l.StepResidue n
  | frame pace _ _ =>
      ∃ k, k < pace.stepsPerFrame ∧ ∃ l, Machine.steps k m = .done l ∧ l.StepResidue n
  | setSwitches _ | tick | reset => False

namespace Machine

theorem residue_steps {m n : Machine ρ} (hm : m.Sized) {count : Nat} {fault : Fault}
    (h : steps count m = .failed fault n) : (∃ e, fault = .error e)
      ∧ ∃ k, k < count ∧ ∃ l, steps k m = .done l ∧ l.StepResidue n := by
  obtain ⟨k, hk, l, hl, hfail⟩ := steps_failed h
  have hsized := sized_steps hm k
  rw [hl] at hsized
  obtain ⟨herror, hresidue⟩ := step_failed hsized hfail
  exact ⟨herror, k, hk, l, hl, hresidue⟩

/-- On a machine of the right size, an operation that fails has found an error. -/
theorem failed_apply {m n : Machine ρ} (hm : m.Sized) {op : Operation} {fault : Fault}
    (h : op.apply m = .failed fault n) : (∃ e, fault = .error e) ∧ op.Residue m n := by
  cases op with
  | load program => exact clean_load hm program _ _ h
  | setRegister r value => exact clean_setRegister m r value _ _ h
  | executeWord w => exact clean_executeWord hm w _ _ h
  | step => exact step_failed hm h
  | steps count => exact residue_steps hm h
  | frame pace look seen =>
    rw [Operation.apply_frame] at h
    cases hsteps : steps pace.stepsPerFrame m with
    | done l =>
      rw [hsteps] at h
      cases h
    | failed fault' n' =>
      rw [hsteps] at h
      cases h
      exact residue_steps hm hsteps
  | _ => cases h

/-- **Errors are atomic**: an operation that fails on a reachable machine failed with an error, and
changed no more than its residue says. -/
theorem errors_atomic {m n : Machine ρ} (hm : m.Reachable) {op : Operation} {fault : Fault}
    (h : op.apply m = .failed fault n) : (∃ e, fault = .error e) ∧ op.Residue m n :=
  failed_apply hm.sized h

/-- Storing v0 and v1 at the last byte of memory: the first would fit, and is not stored. -/
theorem errors_atomic_last_byte :
    ({ powerOn (Stepper.mk 0 1) with index := 0xfff } : Machine Stepper).Reachable
    ∧ (Operation.executeWord 0xf155).apply { powerOn (Stepper.mk 0 1) with index := 0xfff }
        = .failed (.error (.invalidAddress 0x1000)) { powerOn (Stepper.mk 0 1) with index := 0xfff }
    ∧ (∃ e, Fault.error (.invalidAddress 0x1000) = .error e)
    ∧ (Operation.executeWord 0xf155).Residue { powerOn (Stepper.mk 0 1) with index := 0xfff }
        { powerOn (Stepper.mk 0 1) with index := 0xfff } := by
  have hindex : Instruction.ofWord? 0xafff = some (.setIndex 0xfff) := by decide
  have hstore : Instruction.ofWord? 0xf155 = some (.storeRegisters 1) := by decide
  have hreach : ({ powerOn (Stepper.mk 0 1) with index := 0xfff } : Machine Stepper).Reachable := by
    refine ⟨Stepper.mk 0 1, [.executeWord 0xafff], ?_⟩
    simp only [after, Operation.apply, executeWord, hindex, perform, Outcome.state]
  have hfail : ∀ m : Machine Stepper, m.memory.length = memorySize → m.index = 0xfff →
      (Operation.executeWord 0xf155).apply m = .failed (.error (.invalidAddress 0x1000)) m := by
    intro m hlen hindex
    simp only [Operation.apply, executeWord, hstore, perform]
    rw [withRegister_of_lt (by decide), storeBlock_eq, hlen, hindex,
      length_registersUpTo, if_neg (by decide)]
    rfl
  have hlast := hfail { powerOn (Stepper.mk 0 1) with index := 0xfff } Memory.length_fresh rfl
  exact ⟨hreach, hlast, errors_atomic hreach hlast⟩

end Machine

end Chip8
