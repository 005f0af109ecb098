/-
  The lister.

  Prints a program as a listing, a line for each word from a given offset on.  The addresses are those
  the words would have if the program stood at the load address.
-/
import Chip8.CommandLine.Program
import Chip8.Disassembly

namespace Chip8.CommandLine.Lister

/-- What the options say. -/
structure Settings where
  help : Bool
  /-- Zero stands for the usual start of programs. -/
  loadAddress : Nat
  offset : Nat
deriving DecidableEq, Repr

/-- The command line of the lister. -/
def command : Command Settings where
  name := "chipper-disasm"
  fileHelp := "Load a ROM to disassemble"
  initial := ⟨false, 0, 0⟩
  options :=
    [⟨some 'h', "help", "Show help text", .switch fun s => { s with help := true }⟩,
     ⟨some 'l', "loadaddr", "Load address (usually 200)", .argument fun text s => do
       let address ← Integer.readHex UInt16.size text
       return { s with loadAddress := address }⟩,
     ⟨some 'o', "offset", "Start disassembling at offset...",
       .number fun n s => { s with offset := n }⟩]

/-- The address the program is taken to stand at. -/
def Settings.origin (s : Settings) : Nat :=
  if s.loadAddress = 0 then programStart else s.loadAddress

/-- The whole program. -/
def run (read : ReadFile) (args : List String) : Report :=
  let result := withSettings command (·.help) args fun s file =>
    match read file with
    | .error e => .error ⟨1, "", Report.failureLine (.file e)⟩
    | .ok program => .ok (listing s.origin s.offset program)
  match result with
  | .error report => report
  | .ok lines => ⟨0, String.join lines, ""⟩

end Chip8.CommandLine.Lister
