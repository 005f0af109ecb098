/-
  What a machine prints.

  A traced instruction is one line — cycle number, address, styled disassembly.  The register dump is
  six lines of fixed shape.
-/
import Chip8.Disassembly
import Chip8.Machine.Basic
import Chip8.Text.Column

namespace Chip8

/-- The printed form of a traced instruction.  The column of the disassembly is 36 characters wide,
its escape sequences included. -/
def TraceLine.text (line : TraceLine) : String :=
  Style.dim.paint (Column.right 3 (Nat.repr line.cycle.toNat)) ++ " " ++ Hex.padded 3 line.pc.toNat
    ++ ": " ++ Column.left 36 (Palette.coloured.render line.word) ++ "\n"

namespace Machine

variable {ρ : Type}

/-- Everything traced and not yet printed. -/
def traceText (m : Machine ρ) : String := String.join (m.trace.toList.map TraceLine.text)

/-- A register in the dump; every fourth ends its line. -/
def registerDump (number : Nat) (value : UInt8) : String :=
  "v" ++ Hex.upper number ++ ": " ++ Hex.padded 2 value.toNat
    ++ (if number % 4 = 3 then "\n" else " ")

/-- The register dump. -/
def dump (m : Machine ρ) : String :=
  "PC: " ++ Hex.padded 4 m.pc.toNat ++ ", SP: " ++ Hex.padded 4 m.stack.depth
    ++ ", I: " ++ Hex.padded 4 m.index.toNat ++ "\n"
    ++ String.join (m.v.toList.mapIdx registerDump)
    ++ "DLY: " ++ Nat.repr m.delay.toNat ++ ", SND: " ++ Nat.repr m.sound.toNat
    ++ ", CYC: " ++ Column.right 6 (Nat.repr m.cycle.toNat) ++ "\n"

end Machine

end Chip8
