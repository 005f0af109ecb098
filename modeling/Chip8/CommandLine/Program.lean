/-
  Command-line programs.

  A program reads its command line, then a file, and leaves an exit code and two texts.  It sees the
  files only through the function it is given, so a run is a value.
-/
import Chip8.CommandLine.Options
import Chip8.Inspect

namespace Chip8.CommandLine

/-- What a program leaves behind. -/
structure Report where
  code : Nat
  output : String
  errors : String
deriving DecidableEq, Repr

/-- How files are read. -/
abbrev ReadFile := String → Except FileError (List UInt8)

namespace Report

/-- The command line was wrong. -/
def misused (name : String) (e : UsageError) : Report :=
  ⟨2, "", name ++ ": " ++ e.message ++ "\n"⟩

/-- Help was asked for. -/
def helped (usage : String) : Report := ⟨0, "", usage⟩

/-- The line a failed program ends with. -/
def failureLine (e : Error) : String := "Error: " ++ e.inspect ++ "\n"

end Report

/-- Read a command line and, if it is right and no help is asked for, go on with the settings and the
file. -/
def withSettings {α β : Type} (cmd : Command α) (help : α → Bool) (args : List String)
    (next : α → String → Except Report β) : Except Report β :=
  match cmd.read args with
  | .error e => .error (.misused cmd.name e)
  | .ok r =>
      if help r.settings then .error (.helped cmd.usage)
      else
        match r.file? with
        | none => .error (.misused cmd.name .missingFile)
        | some file => next r.settings file

end Chip8.CommandLine
