/-
  Terminal styles.

  A style is the pair of escape sequences put around a piece of text.  Painting never looks into the
  text, so painting twice nests, and the plain style changes nothing.
-/

namespace Chip8

/-- A style — what a terminal is sent before and after a piece of text. -/
structure Style where
  opening : String
  closing : String
deriving DecidableEq, Repr

namespace Style

/-- Text between the two sequences of a style. -/
def paint (s : Style) (text : String) : String := s.opening ++ text ++ s.closing

/-- No sequences at all. -/
def plain : Style := ⟨"", ""⟩

/-- Green — an instruction that decodes. -/
def green : Style := ⟨"\x1b[32m", "\x1b[0m"⟩

/-- Bold green — addresses in a memory dump. -/
def boldGreen : Style := ⟨"\x1b[32;1m", "\x1b[0m"⟩

/-- Bold red — a word that is no instruction. -/
def boldRed : Style := ⟨"\x1b[31;1m", "\x1b[0m"⟩

/-- Bright black — cycle numbers and raw words; the end restores the default colour only. -/
def dim : Style := ⟨"\x1b[90m", "\x1b[39m"⟩

/-- Bold inside red, two nested sequences — the message of a run that failed. -/
def alarm : Style := ⟨"\x1b[31m\x1b[1m", "\x1b[0m\x1b[39m"⟩

@[simp] theorem paint_plain (text : String) : plain.paint text = text := by
  simp [paint, plain]

end Style

end Chip8
