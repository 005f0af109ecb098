/-
  Running in frames.

  A frame is a number of steps, then one look of a viewer at the screen, then one tick of the timers.
  The viewer answers each look with whether to go on.
    * The timers tick after the look, also when the viewer asks to stop.
    * If a step fails, the frame ends there: no look, no tick.

  A run is frame after frame until the viewer asks to stop or a step fails.  It may never end, so it
  is given a limit of frames, and tells when it has reached the limit.
-/
import Chip8.Emulator.Pace
import Chip8.Machine.Step

namespace Chip8

/-- A machine and the pace it is to be run at. -/
structure Emulator (ρ : Type) where
  machine : Machine ρ
  pace : Pace
deriving Repr

/-! ## Viewers -/

/-- A viewer's answer to a look at the screen. -/
inductive Flow where
  | proceed
  | stop
deriving DecidableEq, Repr

/-- Something that looks at the screen once a frame and remembers what it likes of it, as a value of
type `σ` — its answer may depend on every screen so far. -/
abbrev Viewer (σ : Type) := σ → Screen → σ × Flow

/-- How a frame ended. -/
inductive FrameEnd (ρ σ : Type) where
  /-- The viewer saw the screen and gave its answer. -/
  | shown (emulator : Emulator ρ) (memory : σ) (flow : Flow)
  /-- A step failed before that. -/
  | failed (fault : Fault) (emulator : Emulator ρ)

/-- How a run ended. -/
inductive RunEnd (ρ σ : Type) where
  /-- The viewer asked to stop. -/
  | stopped (emulator : Emulator ρ) (memory : σ)
  /-- A step failed. -/
  | failed (fault : Fault) (emulator : Emulator ρ) (memory : σ)
  /-- The limit of frames was reached. -/
  | unfinished (emulator : Emulator ρ) (memory : σ)

/-! ## Frames and runs -/

namespace Emulator

variable {ρ σ : Type} [ByteSource ρ]

/-- Take a number of steps, the timers standing still. -/
def runSteps (e : Emulator ρ) (n : Nat) : Outcome (Emulator ρ) :=
  (Machine.steps n e.machine).map fun m => { e with machine := m }

/-- Run one frame. -/
def frame (look : Viewer σ) (e : Emulator ρ) (seen : σ) : FrameEnd ρ σ :=
  match Machine.steps e.pace.stepsPerFrame e.machine with
  | .failed f m => .failed f { e with machine := m }
  | .done m =>
      let (seen, flow) := look seen m.screen
      .shown { e with machine := m.tick } seen flow

/-- Run frames, at most `limit` of them. -/
def run (look : Viewer σ) : Nat → Emulator ρ → σ → RunEnd ρ σ
  | 0, e, seen => .unfinished e seen
  | limit + 1, e, seen =>
      match e.frame look seen with
      | .failed f e => .failed f e seen
      | .shown e seen .stop => .stopped e seen
      | .shown e seen .proceed => run look limit e seen

end Emulator

end Chip8
