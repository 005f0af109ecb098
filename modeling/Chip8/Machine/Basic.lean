/-
  The machine.

  A machine owns its memory, screen and call stack, sixteen byte registers, the index register I, the
  program counter, two timers and a cycle count, and the source its random bytes come from.  It knows
  nothing of time — the timers move only when `tick` is called.

  Two further things ride along: the user's `switches`, and `trace`, the lines that tracing has produced
  so far.  Nothing the machine does depends on the trace, so whoever prints it may empty it.
-/
import Chip8.CallStack
import Chip8.Switches
import Chip8.Memory.Basic
import Chip8.Outcome
import Chip8.Random.Source
import Chip8.Screen

namespace Chip8

/-! ## State -/

/-- One traced instruction — when, where, and which word. -/
structure TraceLine where
  cycle : UInt64
  pc : UInt16
  word : UInt16
deriving DecidableEq, Repr

/-- A machine whose random bytes come from a source of type `ρ`. -/
structure Machine (ρ : Type) where
  switches : Switches
  memory : Memory
  screen : Screen
  stack : CallStack
  /-- The address of the next instruction. -/
  pc : UInt16
  /-- The index register I. -/
  index : UInt16
  /-- The registers v0 to vF. -/
  v : Vector UInt8 16
  delay : UInt8
  sound : UInt8
  /-- Instructions executed since power-on or reset. -/
  cycle : UInt64
  random : ρ
  /-- Traced instructions not yet printed, oldest first. -/
  trace : Array TraceLine
deriving Repr

namespace Machine

variable {ρ ρ' : Type}

/-- The address execution begins at. -/
def entry : UInt16 := UInt16.ofNat programStart

/-- A machine just switched on. -/
def powerOn (random : ρ) : Machine ρ where
  switches := .off
  memory := .fresh
  screen := .blank
  stack := .empty
  pc := entry
  index := 0
  v := Vector.replicate 16 0
  delay := 0
  sound := 0
  cycle := 0
  random := random
  trace := #[]

/-! ## What the user does to a machine -/

/-- Load a program into memory; nothing else changes. -/
def load (m : Machine ρ) (program : List UInt8) : Outcome (Machine ρ) :=
  match m.memory.load program with
  | .ok memory => .done { m with memory := memory }
  | .error fault => .failed fault m

/-- Put a value into a register by its number. -/
def setRegister (m : Machine ρ) (r : Nat) (value : UInt8) : Outcome (Machine ρ) :=
  if h : r < 16 then .done { m with v := m.v.set r value h }
  else .failed (.error (.invalidRegister r)) m

/-- Count both timers down by a number, stopping at zero. -/
def ticks (n : Nat) (m : Machine ρ) : Machine ρ :=
  { m with delay := UInt8.ofNat (m.delay.toNat - n)
           sound := UInt8.ofNat (m.sound.toNat - n) }

/-- Count both timers down by one, stopping at zero. -/
def tick (m : Machine ρ) : Machine ρ := m.ticks 1

/-- Go back to the state after power-on, but for the switches, the memory, the random source and the
trace. -/
def reset (m : Machine ρ) : Machine ρ :=
  { m with stack := m.stack.clear
           pc := entry
           index := 0
           v := Vector.replicate 16 0
           delay := 0
           sound := 0
           screen := m.screen.clear
           cycle := 0 }

/-- Turn tracing on or off. -/
def toggleTracing (m : Machine ρ) : Machine ρ := { m with switches := m.switches.toggleTracing }

/-- Hold the machine or let it go. -/
def togglePaused (m : Machine ρ) : Machine ρ := { m with switches := m.switches.togglePaused }

/-- Take the trace away. -/
def clearTrace (m : Machine ρ) : Machine ρ := { m with trace := #[] }

/-- Ticks add up. -/
theorem ticks_ticks (a b : Nat) (m : Machine ρ) : (m.ticks a).ticks b = m.ticks (a + b) := by
  have hd := m.delay.toNat_lt
  have hs := m.sound.toNat_lt
  simp only [ticks, mk.injEq, true_and]
  refine ⟨?_, ?_, trivial⟩
  all_goals
    apply UInt8.toNat_inj.mp
    simp only [UInt8.toNat_ofNat']
    omega

/-! ## Comparison -/

/-- Are two machines in the same state?  Of the stacks only the live frames count; the random source
and the trace do not. -/
def same (m : Machine ρ) (n : Machine ρ') : Bool :=
  m.switches == n.switches && m.memory == n.memory && m.screen == n.screen
    && m.stack.live == n.stack.live && m.pc == n.pc && m.index == n.index && m.v == n.v
    && m.delay == n.delay && m.sound == n.sound && m.cycle == n.cycle

end Machine

end Chip8
