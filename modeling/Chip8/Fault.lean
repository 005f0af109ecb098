/-
  What can go wrong.

  Two kinds of fault are told apart throughout:
    * an `Error` is a finding of the machine about the program it runs (or about the file it was
      asked for); it has a cause, a message, and leaves the machine usable;
    * a `Crash` is a broken assumption inside the machine itself — an index past the end of a list,
      or a pixel off the screen.  Values of the right size never crash; undersized ones, which can
      only be read in from outside, may.
-/
import Chip8.Text.Hex

namespace Chip8

/-! ## Files -/

/-- Why a file cannot be read. -/
inductive FileError where
  | notFound
  | isDirectory
  | notDirectory
  /-- The path, or one of its parts, has more bytes than the system takes. -/
  | nameTooLong
  /-- The path holds a zero byte, so it never reaches the system. -/
  | zeroByte
  | other (code : Nat) (reason : String)
deriving DecidableEq, Repr

namespace FileError

/-- The system's number for the failure, if the system was asked at all. -/
def code? : FileError → Option Nat
  | notFound => some 2
  | notDirectory => some 20
  | isDirectory => some 21
  | nameTooLong => some 36
  | zeroByte => none
  | other code _ => some code

/-- The words for the failure. -/
def reason : FileError → String
  | notFound => "No such file or directory"
  | notDirectory => "Not a directory"
  | isDirectory => "Is a directory"
  | nameTooLong => "File name too long"
  | zeroByte => "file name contained an unexpected NUL byte"
  | other _ reason => reason

/-- The class the failure is filed under. -/
def kind : FileError → String
  | notFound => "NotFound"
  | notDirectory => "NotADirectory"
  | isDirectory => "IsADirectory"
  | nameTooLong => "InvalidFilename"
  | zeroByte => "InvalidInput"
  | other .. => "Uncategorized"

/-- The sentence shown to the user — the words, then the system's number. -/
def message (e : FileError) : String :=
  match e.code? with
  | some code => e.reason ++ " (os error " ++ Nat.repr code ++ ")"
  | none => e.reason

end FileError

/-! ## Errors -/

/-- A finding about the program or the file; every one of them ends the run. -/
inductive Error where
  /-- The word matches no instruction. -/
  | unimplemented (word : UInt16)
  /-- A return with nothing on the call stack; `pc` is the address after it. -/
  | stackUnderflow (pc : UInt16)
  /-- A call with the call stack full; `pc` is the address after it. -/
  | stackOverflow (pc : UInt16) (depth : Nat)
  /-- The first address of an access that lies outside memory. -/
  | invalidAddress (address : Nat)
  /-- The program has more bytes than program memory holds. -/
  | programTooLarge (length limit : Nat)
  /-- There is no register of that number. -/
  | invalidRegister (register : Nat)
  /-- The file could not be read. -/
  | file (cause : FileError)
deriving DecidableEq, Repr

/-- The sentence shown to the user. -/
def Error.message : Error → String
  | unimplemented word => "opcode " ++ Hex.padded 4 word.toNat ++ " not recognized"
  | stackUnderflow pc => "return at " ++ Hex.padded 3 pc.toNat ++ " with an empty call stack"
  | stackOverflow pc depth =>
      "call at " ++ Hex.padded 3 pc.toNat ++ " exceeds the call stack depth of " ++ Nat.repr depth
  | invalidAddress address => "address " ++ Hex.padded 4 address ++ " is out of range"
  | programTooLarge length limit =>
      "program is " ++ Nat.repr length ++ " bytes, but only " ++ Nat.repr limit
        ++ " bytes fit in memory"
  | invalidRegister register =>
      "tried to access register v" ++ Hex.upper register ++ " which does not exist"
  | file cause => cause.message

/-! ## Crashes and faults -/

/-- A broken assumption inside the machine. -/
inductive Crash where
  /-- An index past the end of a list. -/
  | index
  /-- A pixel that is not on the screen. -/
  | offScreen (x y : Nat)
deriving DecidableEq, Repr

/-- The words of a crash that has any. -/
def Crash.message? : Crash → Option String
  | index => none
  | offScreen x y =>
      some ("pixel (" ++ Nat.repr x ++ ", " ++ Nat.repr y ++ ") is outside the 64x32 screen")

/-- Anything that stops an operation. -/
inductive Fault where
  | error (cause : Error)
  | crash (cause : Crash)
deriving DecidableEq, Repr

/-! ## Examples -/

example : (Error.unimplemented 0xff).message = "opcode 00ff not recognized" := by decide
example : (Error.stackUnderflow 0x202).message = "return at 202 with an empty call stack" := by decide

end Chip8
