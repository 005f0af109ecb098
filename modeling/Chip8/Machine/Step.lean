/-
  Running a machine.

  A step of a machine that is not paused
    1. fetches the word at the program counter — outside memory it fails there and changes nothing;
    2. traces it, if tracing is on;
    3. counts the cycle and moves the program counter past the word;
    4. executes the word, so an instruction that fails leaves the counter and the cycle moved on.
  A paused machine takes its steps without doing anything.
-/
import Chip8.Machine.Execute

namespace Chip8.Machine

variable {ρ : Type} [ByteSource ρ]

/-- The word at the program counter. -/
def fetch (m : Machine ρ) : Except Error UInt16 := m.memory.word m.pc.toNat

/-- The machine after a word has been fetched and before it is executed. -/
def advance (m : Machine ρ) (w : UInt16) : Machine ρ :=
  { m with trace := if m.switches.tracing then m.trace.push ⟨m.cycle, m.pc, w⟩ else m.trace
           cycle := m.cycle + 1
           pc := m.pc + 2 }

/-- Fetch, decode and execute one instruction. -/
def step (m : Machine ρ) : Outcome (Machine ρ) :=
  if m.switches.paused then .done m
  else
    match m.fetch with
    | .error e => .failed (.error e) m
    | .ok w => (m.advance w).executeWord w

/-- Take a number of steps, stopping at the first that fails.  A paused machine is not asked again,
for it would stay as it is however often. -/
def steps : Nat → Machine ρ → Outcome (Machine ρ)
  | 0, m => .done m
  | n + 1, m =>
      if m.switches.paused then .done m
      else
        match m.step with
        | .done m => steps n m
        | .failed f m => .failed f m

/-! ## Steps one by one -/

theorem steps_zero (m : Machine ρ) : steps 0 m = .done m := rfl

/-- A paused machine stays as it is. -/
theorem steps_of_paused {m : Machine ρ} (h : m.switches.paused = true) (n : Nat) :
    steps n m = .done m := by
  rcases n with _ | n
  · rfl
  · rw [steps, if_pos h]

/-- One step, and then the others. -/
theorem steps_succ (n : Nat) (m : Machine ρ) : steps (n + 1) m = m.step.andThen (steps n) := by
  by_cases h : m.switches.paused = true
  · rw [steps, if_pos h, step, if_pos h]
    exact (steps_of_paused h n).symm
  · rw [steps, if_neg h]
    cases m.step with
    | done m => rfl
    | failed f m => rfl

theorem steps_add (a b : Nat) (m : Machine ρ) :
    steps (a + b) m = (steps a m).andThen (steps b) := by
  induction a generalizing m with
  | zero => rw [Nat.zero_add]; rfl
  | succ a ih =>
      rw [Nat.succ_add, steps_succ, steps_succ, Outcome.andThen_assoc]
      congr 1
      exact funext ih

/-- What every step keeps, a row of steps keeps. -/
theorem steps_keeps {P : Machine ρ → Prop} (hstep : ∀ m, P m → P m.step.state) {m : Machine ρ}
    (hm : P m) (n : Nat) : P (steps n m).state := by
  induction n generalizing m with
  | zero => exact hm
  | succ n ih =>
      have hfirst := hstep m hm
      rw [steps_succ]
      cases h : m.step with
      | done m' =>
          rw [h] at hfirst
          exact ih hfirst
      | failed f m' =>
          rw [h] at hfirst
          exact hfirst

end Chip8.Machine
