/-
  Whole numbers on the command line.

  An optional plus sign, then digits of the radix and nothing else; no minus, no blanks, no
  separators.  The text is read from left to right and the first thing wrong with it is reported, so a
  number that has already grown too large is too large whatever follows.
-/

namespace Chip8.CommandLine

/-- What is wrong with the text of a number. -/
inductive IntegerError where
  | empty
  | invalidDigit
  | tooLarge
deriving DecidableEq, Repr

/-- The words for it. -/
def IntegerError.message : IntegerError → String
  | empty => "cannot parse integer from empty string"
  | invalidDigit => "invalid digit found in string"
  | tooLarge => "number too large to fit in target type"

namespace Integer

/-- The value of a digit in a radix up to sixteen; letters may be small or capital. -/
def digit? (radix : Nat) (c : Char) : Option Nat :=
  let value :=
    if '0' ≤ c ∧ c ≤ '9' then c.toNat - '0'.toNat
    else if 'a' ≤ c ∧ c ≤ 'f' then c.toNat - 'a'.toNat + 10
    else if 'A' ≤ c ∧ c ≤ 'F' then c.toNat - 'A'.toNat + 10
    else radix
  if value < radix then some value else none

/-- Read digits behind the number `value`. -/
def readDigits (radix bound : Nat) : List Char → Nat → Except IntegerError Nat
  | [], value => .ok value
  | c :: cs, value =>
      match digit? radix c with
      | none => .error .invalidDigit
      | some d =>
          if bound ≤ value * radix + d then .error .tooLarge
          else readDigits radix bound cs (value * radix + d)

/-- Read a whole number below the bound. -/
def read (radix bound : Nat) (text : String) : Except IntegerError Nat :=
  match text.toList with
  | [] => .error .empty
  | ['+'] => .error .invalidDigit
  | '+' :: digits => readDigits radix bound digits 0
  | digits => readDigits radix bound digits 0

/-- Drop every leading `0x`. -/
def dropHexMarks : List Char → List Char
  | '0' :: 'x' :: rest => dropHexMarks rest
  | rest => rest

/-- Read a hexadecimal number below the bound, with any number of `0x` in front. -/
def readHex (bound : Nat) (text : String) : Except IntegerError Nat :=
  read 16 bound (String.ofList (dropHexMarks text.toList))

end Integer

/-! ## Examples -/

example : Integer.read 10 256 "+255" = .ok 255 := rfl
example : Integer.read 10 256 "256x" = .error .tooLarge := rfl
example : Integer.read 10 256 "-0" = .error .invalidDigit := rfl
example : Integer.readHex 65536 "0x0xfF" = .ok 255 := rfl

end Chip8.CommandLine
