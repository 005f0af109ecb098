/-
  Pace.

  How many instructions go into a frame, and how many frames into a second.  The pace in seconds is
  only a wish: no instruction can tell how long a frame took.
-/

namespace Chip8

/-- The speed of an emulation. -/
structure Pace where
  stepsPerFrame : Nat
  /-- Frames per second; zero is as fast as possible. -/
  framesPerSecond : Nat
deriving DecidableEq, Repr

namespace Pace

/-- Ten instructions a frame, sixty frames a second. -/
def standard : Pace := ⟨10, 60⟩

instance : Inhabited Pace := ⟨standard⟩

/-- Nanoseconds in a second. -/
def second : Nat := 1000000000

/-- The largest rate told apart from still larger ones. -/
def topRate : Nat := UInt32.size - 1

/-- How long a frame should take, in whole nanoseconds. -/
def frameNanoseconds (p : Pace) : Nat :=
  if p.framesPerSecond = 0 then 0 else second / min p.framesPerSecond topRate

end Pace

/-! ## Examples -/

example : Pace.frameNanoseconds ⟨10, 60⟩ = 16666666 ∧ Pace.frameNanoseconds ⟨10, 0⟩ = 0 := by decide

end Chip8
