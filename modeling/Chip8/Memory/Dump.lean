/-
  The memory dump.

  Memory is printed in lines of sixteen bytes, in ascending order, leaving out the lines that are all
  zero.  A line is its address and a colon, both in bold green, then the bytes in pairs with a wider
  gap in the middle.  The sixteenth byte ends the line; a short last line stays open.
-/
import Chip8.Memory.Basic
import Chip8.Text.Style

namespace Chip8.Memory

/-- Every line of sixteen bytes with its address; the last one may be shorter. -/
def lines (m : Memory) : List (Nat × List UInt8) :=
  (List.range ((m.length + 15) / 16)).map fun k =>
    (16 * k, (m.bytes.extract (16 * k) (16 * k + 16)).toList)

/-- The lines that hold something. -/
def liveLines (m : Memory) : List (Nat × List UInt8) :=
  m.lines.filter fun line => line.2.any (· != 0)

/-- What follows the byte in a column. -/
def gap (column : Nat) : List Char :=
  if column = 15 then ['\n']
  else if column = 7 then [' ', ' ']
  else if column % 2 = 1 then [' ']
  else []

/-- The bytes of a line, each followed by its gap. -/
def lineBytes (bytes : List UInt8) : List Char :=
  (bytes.mapIdx fun column b => Hex.byteDigits b ++ gap column).flatten

/-- One line of the dump. -/
def dumpLine (line : Nat × List UInt8) : String :=
  Style.boldGreen.paint (Hex.padded 3 line.1) ++ Style.boldGreen.paint ":" ++ " "
    ++ String.ofList (lineBytes line.2)

/-- The whole dump. -/
def dump (m : Memory) : String := String.join (m.liveLines.map dumpLine)

/-! ## Examples -/

example : lineBytes [0xf0, 0x90, 0x90] = "f090 90".toList := by decide
example : lineBytes (List.replicate 8 0xff) = "ffff ffff ffff ffff  ".toList := by decide

end Chip8.Memory
