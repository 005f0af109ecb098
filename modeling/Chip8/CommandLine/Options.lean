/-
  Options.

  A command line is read from left to right against a table of options, each of which is a switch or
  takes an argument:
    * `--name`, `--name=argument`, `--name argument`; names are exact;
    * `-abc` is three short options; one that takes an argument takes the rest of the cluster, or the
      next word if nothing is left of it;
    * `--` ends the options; `-` alone, and whatever does not begin with a dash, is a free argument,
      of which there is exactly one — the file.
  The first thing wrong is reported.  A missing file is noticed last, and forgiven if help was asked
  for.  The usage text is printed from the same table.
-/
import Chip8.CommandLine.Integer
import Chip8.Text.Column

namespace Chip8.CommandLine

/-! ## Tables -/

/-- What an option does to settings of type `α`. -/
inductive Effect (α : Type) where
  /-- It stands alone. -/
  | switch (apply : α → α)
  /-- It takes an argument, which it may refuse. -/
  | argument (apply : String → α → Except IntegerError α)

/-- One option. -/
structure OptionSpec (α : Type) where
  short? : Option Char
  long : String
  help : String
  effect : Effect α

/-- A command — its name, its one file, its options, and the settings before any is given. -/
structure Command (α : Type) where
  name : String
  fileHelp : String
  options : List (OptionSpec α)
  initial : α

/-- Settings and the file, as far as the command line has been read. -/
structure Reading (α : Type) where
  settings : α
  file? : Option String

/-- An option that takes a whole number of 64 bits. -/
def Effect.number {α : Type} (apply : Nat → α → α) : Effect α :=
  .argument fun text settings => do
    let value ← Integer.read 10 UInt64.size text
    return apply value settings

/-! ## Errors -/

/-- What is wrong with a command line.  Options are named as they were typed. -/
inductive UsageError where
  | unrecognized (spelling : String)
  | missingArgument (spelling : String)
  | unexpectedArgument (spelling : String)
  | invalidArgument (spelling : String) (cause : IntegerError)
  | unexpectedFree (argument : String)
  | missingFile
deriving DecidableEq, Repr

/-- The words for it. -/
def UsageError.message : UsageError → String
  | unrecognized spelling => "unrecognized option `" ++ spelling ++ "`"
  | missingArgument spelling => "missing argument to option `" ++ spelling ++ "`"
  | unexpectedArgument spelling => "option `" ++ spelling ++ "` does not accept an argument"
  | invalidArgument spelling cause =>
      "invalid argument to option `" ++ spelling ++ "`: " ++ cause.message
  | unexpectedFree argument => "unexpected free argument `" ++ argument ++ "`"
  | missingFile => "missing required free argument"

/-! ## Words of a command line -/

/-- What a word of the command line is by its looks. -/
inductive Shape where
  /-- A free argument. -/
  | free
  /-- The end of the options. -/
  | endOfOptions
  /-- A long option, with an argument if there is an equals sign. -/
  | long (name : String) (argument? : Option String)
  /-- Short options. -/
  | cluster (letters : List Char)
deriving DecidableEq, Repr

/-- A long option without its dashes, cut at the first equals sign. -/
def Shape.ofLong (text : List Char) : Shape :=
  let name := text.takeWhile (· != '=')
  match text.drop name.length with
  | [] => .long (String.ofList name) none
  | _ :: argument => .long (String.ofList name) (some (String.ofList argument))

/-- Look at a word. -/
def Shape.of (word : String) : Shape :=
  match word.toList with
  | ['-', '-'] => .endOfOptions
  | '-' :: '-' :: text => .ofLong text
  | '-' :: letter :: letters => .cluster (letter :: letters)
  | _ => .free

namespace Command

variable {α : Type}

/-! ## Reading -/

/-- The option of a short name. -/
def short? (cmd : Command α) (letter : Char) : Option (OptionSpec α) :=
  cmd.options.find? (·.short? == some letter)

/-- The option of a long name. -/
def long? (cmd : Command α) (name : String) : Option (OptionSpec α) :=
  cmd.options.find? (·.long == name)

/-- Give an option its argument. -/
def supply (spelling : String) (apply : String → α → Except IntegerError α) (argument : String)
    (settings : α) : Except UsageError α :=
  match apply argument settings with
  | .ok settings => .ok settings
  | .error cause => .error (.invalidArgument spelling cause)

/-- An option still waiting for its argument. -/
abbrev Waiting (α : Type) := String × (String → α → Except IntegerError α)

/-- Read short options; the last one may be left waiting for an argument. -/
def readCluster (cmd : Command α) : List Char → α → Except UsageError (α × Option (Waiting α))
  | [], settings => .ok (settings, none)
  | letter :: letters, settings =>
      let spelling := String.ofList ['-', letter]
      match (cmd.short? letter).map OptionSpec.effect with
      | none => .error (.unrecognized spelling)
      | some (.switch apply) => readCluster cmd letters (apply settings)
      | some (.argument apply) =>
          if letters.isEmpty then .ok (settings, some (spelling, apply))
          else do return (← supply spelling apply (String.ofList letters) settings, none)

/-- Read a long option; it may be left waiting for an argument. -/
def readLong (cmd : Command α) (name : String) (argument? : Option String) (settings : α) :
    Except UsageError (α × Option (Waiting α)) :=
  let spelling := "--" ++ name
  match (cmd.long? name).map OptionSpec.effect, argument? with
  | none, _ => .error (.unrecognized spelling)
  | some (.switch apply), none => .ok (apply settings, none)
  | some (.switch _), some _ => .error (.unexpectedArgument spelling)
  | some (.argument apply), none => .ok (settings, some (spelling, apply))
  | some (.argument apply), some argument => do
      return (← supply spelling apply argument settings, none)

/-- Take a free argument. -/
def readFree (argument : String) (r : Reading α) : Except UsageError (Reading α) :=
  match r.file? with
  | none => .ok { r with file? := some argument }
  | some _ => .error (.unexpectedFree argument)

/-- Read the words of a command line — `waiting` is the option whose argument comes next, `plain` is
set once the options have ended. -/
def readWords (cmd : Command α) :
    List String → Option (Waiting α) → Bool → Reading α → Except UsageError (Reading α)
  | [], none, _, r => .ok r
  | [], some (spelling, _), _, _ => .error (.missingArgument spelling)
  | word :: words, some (spelling, apply), plain, r => do
      let settings ← supply spelling apply word r.settings
      readWords cmd words none plain { r with settings := settings }
  | word :: words, none, true, r => do readWords cmd words none true (← readFree word r)
  | word :: words, none, false, r =>
      match Shape.of word with
      | .free => do readWords cmd words none false (← readFree word r)
      | .endOfOptions => readWords cmd words none true r
      | .long name argument? => do
          let (settings, waiting) ← readLong cmd name argument? r.settings
          readWords cmd words waiting false { r with settings := settings }
      | .cluster letters => do
          let (settings, waiting) ← readCluster cmd letters r.settings
          readWords cmd words waiting false { r with settings := settings }

/-- Read a whole command line. -/
def read (cmd : Command α) (words : List String) : Except UsageError (Reading α) :=
  readWords cmd words none false ⟨cmd.initial, none⟩

/-! ## Usage -/

/-- The options part of a usage line. -/
def spelling (o : OptionSpec α) : String :=
  let short := match o.short? with
    | some letter => String.ofList ['-', letter, ',', ' ']
    | none => ""
  let placeholder := match o.effect with
    | .switch _ => ""
    | .argument _ => " " ++ o.long.toUpper
  "  " ++ short ++ "--" ++ o.long ++ placeholder

/-- The widest part that still has its help beside it. -/
def widest : Nat := 26

/-- A usage line; help that has no room beside the option goes below it. -/
def usageLine (column : Nat) (part help : String) : String :=
  if part.length ≤ widest then Column.left column part ++ help ++ "\n"
  else part ++ "\n" ++ Column.left column "" ++ help ++ "\n"

/-- The usage text. -/
def usage (cmd : Command α) : String :=
  let file := "  file"
  let parts := file :: cmd.options.map spelling
  let column := ((parts.map String.length).filter (· ≤ widest)).foldl max 0 + 2
  "Usage: " ++ cmd.name ++ " [OPTIONS]\n\nPositional arguments:\n"
    ++ usageLine column file cmd.fileHelp
    ++ "\nOptional arguments:\n"
    ++ String.join (cmd.options.map fun o => usageLine column (spelling o) o.help)

end Command

/-! ## Examples -/

example : Shape.of "--speed=1=2" = .long "speed" (some "1=2") := by decide
example : Shape.of "---" = .long "-" none ∧ Shape.of "-" = .free ∧ Shape.of "" = .free := by decide

end Chip8.CommandLine
