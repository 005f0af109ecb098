/-
  Disassembly.

  A palette is a choice of two styles — one for words that are instructions, one for words that are
  not.  Listing a program gives each of its words a line with the word's address.
-/
import Chip8.Instruction.Text
import Chip8.Text.Style

namespace Chip8

/-- How disassembled words are styled. -/
structure Palette where
  invalid : Style
  normal : Style
deriving DecidableEq, Repr

namespace Palette

/-- No styling. -/
def plain : Palette := ⟨.plain, .plain⟩

/-- Instructions in green, everything else in bold red. -/
def coloured : Palette := ⟨.boldRed, .green⟩

/-- The style of a word. -/
def style (p : Palette) (w : UInt16) : Style :=
  if (Instruction.ofWord? w).isSome then p.normal else p.invalid

/-- The styled text of a word. -/
def render (p : Palette) (w : UInt16) : String := (p.style w).paint (Word.text w)

end Palette

/-! ## Listings -/

/-- The complete words of a byte string; a last odd byte is left out. -/
def wordsOf : List UInt8 → List UInt16
  | high :: low :: rest => Word.ofBytes high low :: wordsOf rest
  | _ => []

/-- One line of a listing — address, disassembly, raw word. -/
def listingLine (address : Nat) (w : UInt16) : String :=
  Hex.padded 3 address ++ ": " ++ Palette.coloured.render w ++ " "
    ++ Style.dim.paint (Hex.padded 4 w.toNat) ++ "\n"

/-- The listing of a program from byte `offset` on, the whole program standing at `origin`. -/
def listing (origin offset : Nat) (program : List UInt8) : List String :=
  (wordsOf (program.drop offset)).mapIdx fun k w => listingLine (origin + offset + 2 * k) w

end Chip8
