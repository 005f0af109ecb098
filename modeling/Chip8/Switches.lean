/-
  Switches.

  Two switches that belong to the user of the machine and not to its program: `tracing` writes down
  each instruction, `paused` holds all of them.
-/

namespace Chip8

/-- The user's switches. -/
structure Switches where
  tracing : Bool
  paused : Bool
deriving DecidableEq, Repr

namespace Switches

/-- Both switches off. -/
def off : Switches := ⟨false, false⟩

instance : Inhabited Switches := ⟨off⟩

/-- Turn tracing on or off. -/
def toggleTracing (s : Switches) : Switches := { s with tracing := !s.tracing }

/-- Hold the machine or let it go. -/
def togglePaused (s : Switches) : Switches := { s with paused := !s.paused }

/-- Switches are ordered by `tracing` and then by `paused`, off before on. -/
def compare (s t : Switches) : Ordering :=
  (Ord.compare s.tracing t.tracing).then (Ord.compare s.paused t.paused)

end Switches

/-! ## Examples -/

example : Switches.compare ⟨false, true⟩ ⟨true, false⟩ = .lt := by decide

end Chip8
