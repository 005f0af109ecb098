/-
  Operations and histories.

  Whoever owns a machine uses it through a few operations (`Operation`).  A history is a list of them,
  carried out one after the other on a machine just switched on; after one that fails, the next goes on
  from the state it left.  The machines that some history leads to are the reachable ones.

  What every operation keeps, every reachable machine has (`Reachable.induct`); the sizes are the first
  such thing (`Reachable.sized`).
-/
import Chip8.Emulator.Run
import Chip8.Proofs.Sized

namespace Chip8

variable {ρ σ : Type}

/-- What a frame did to the machine. -/
def FrameEnd.outcome : FrameEnd ρ σ → Outcome (Machine ρ)
  | shown e _ _ => .done e.machine
  | failed fault e => .failed fault e.machine

/-! ## Operations -/

/-- One thing to do to a machine. -/
inductive Operation where
  /-- Load a program. -/
  | load (program : List UInt8)
  /-- Put a value into a register by its number. -/
  | setRegister (r : Nat) (value : UInt8)
  /-- Put the switches as they are wanted. -/
  | setSwitches (switches : Switches)
  /-- Count the timers down. -/
  | tick
  /-- Go back to the state after power-on. -/
  | reset
  /-- Carry out a word without fetching it. -/
  | executeWord (w : UInt16)
  /-- Take one step. -/
  | step
  /-- Take a number of steps. -/
  | steps (n : Nat)
  /-- Run one frame, shown to a viewer. -/
  | frame {σ : Type} (pace : Pace) (look : Viewer σ) (seen : σ)

namespace Operation

/-- How an operation ends on a machine. -/
def apply [ByteSource ρ] (m : Machine ρ) : Operation → Outcome (Machine ρ)
  | load program => m.load program
  | setRegister r value => m.setRegister r value
  | setSwitches switches => .done { m with switches := switches }
  | tick => .done m.tick
  | reset => .done m.reset
  | executeWord w => m.executeWord w
  | step => m.step
  | steps n => Machine.steps n m
  | frame pace look seen => (Emulator.frame look ⟨m, pace⟩ seen).outcome

/-- How many steps an operation takes if none of them fails. -/
def stepCount : Operation → Nat
  | step => 1
  | steps n => n
  | frame pace _ _ => pace.stepsPerFrame
  | _ => 0

variable [ByteSource ρ]

/-- A frame is its steps and a tick, whoever looks on. -/
theorem apply_frame (m : Machine ρ) (pace : Pace) (look : Viewer σ) (seen : σ) :
    (frame pace look seen).apply m
      = (Machine.steps pace.stepsPerFrame m).andThen fun n => .done n.tick := by
  show (Emulator.frame look ⟨m, pace⟩ seen).outcome = _
  unfold Emulator.frame
  cases Machine.steps pace.stepsPerFrame m with
  | done n => rfl
  | failed fault n => rfl

/-- What the steps and a tick keep, a frame keeps. -/
theorem frame_keeps {P : Machine ρ → Prop} (htick : ∀ n, P n → P n.tick) {m : Machine ρ} {pace : Pace}
    {look : Viewer σ} {seen : σ} (hsteps : P (Machine.steps pace.stepsPerFrame m).state) :
    P ((frame pace look seen).apply m).state := by
  rw [apply_frame]
  cases h : Machine.steps pace.stepsPerFrame m with
  | done n =>
    rw [h] at hsteps
    exact htick n hsteps
  | failed fault n =>
    rw [h] at hsteps
    exact hsteps

end Operation

namespace Machine

variable [ByteSource ρ]

/-! ## Histories -/

/-- The machine after a history. -/
def after : List Operation → Machine ρ → Machine ρ
  | [], m => m
  | op :: history, m => after history (op.apply m).state

/-- Does some history lead from power-on to the machine? -/
def Reachable (m : Machine ρ) : Prop :=
  ∃ (random : ρ) (history : List Operation), after history (powerOn random) = m

/-- What every operation keeps, a history keeps. -/
theorem after_induct {P : Machine ρ → Prop}
    (happly : ∀ (m : Machine ρ) (op : Operation), P m → P (op.apply m).state)
    (history : List Operation) {m : Machine ρ} (hm : P m) : P (after history m) := by
  induction history generalizing m with
  | nil => exact hm
  | cons op history ih => exact ih (happly m op hm)

/-- What holds at power-on and survives every operation holds of every reachable machine. -/
theorem Reachable.induct {P : Machine ρ → Prop} (hpower : ∀ random, P (powerOn random))
    (happly : ∀ (m : Machine ρ) (op : Operation), P m → P (op.apply m).state) {m : Machine ρ}
    (hm : m.Reachable) : P m := by
  obtain ⟨random, history, rfl⟩ := hm
  exact after_induct happly history (hpower random)

/-! ## Sizes -/

/-- No operation changes a size. -/
theorem sized_apply {m : Machine ρ} (op : Operation) (hm : m.Sized) : (op.apply m).state.Sized := by
  cases op with
  | load program => exact sized_load hm program
  | setRegister r value => exact sized_setRegister hm r value
  | setSwitches switches => exact ⟨hm.memory, hm.screen, hm.stack⟩
  | tick => exact sized_tick hm
  | reset => exact sized_reset hm
  | executeWord w => exact sized_executeWord hm w
  | step => exact sized_step hm
  | steps n => exact sized_steps hm n
  | frame pace look seen =>
    exact Operation.frame_keeps (P := Sized) (fun _ => sized_tick)
      (sized_steps hm pace.stepsPerFrame)

theorem Reachable.sized {m : Machine ρ} (hm : m.Reachable) : m.Sized :=
  hm.induct sized_powerOn fun _ op => sized_apply op

end Machine

end Chip8
