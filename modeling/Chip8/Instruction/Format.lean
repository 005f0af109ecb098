/-
  The format of instructions in memory.

  Every instruction is one word.  Its format is a row of four hexadecimal digits, each either fixed
  or part of an operand — `8xy4` is `[is 8, of x, of y, is 4]`.  An operand is the number written by
  its digits from left to right.
    * decoding picks the opcode whose fixed digits the word has, and reads the operands off;
    * encoding writes the fixed digits and, of every operand, as many low digits as the format has
      places for it.
-/
import Chip8.Instruction.Basic
import Chip8.Word

namespace Chip8

/-! ## Formats -/

/-- One digit of a format. -/
inductive Slot where
  /-- A fixed digit. -/
  | is (digit : Nat)
  /-- A digit of an operand. -/
  | of (field : Field)
deriving DecidableEq, Repr

/-- A row of digits, most significant first. -/
abbrev Format := List Slot

namespace Format

/-- A row of digits has the format if the fixed digits agree. -/
def accepts : Format → List Nat → Bool
  | [], [] => true
  | .is d :: format, e :: digits => d == e && accepts format digits
  | .of _ :: format, _ :: digits => accepts format digits
  | _, _ => false

/-- What a digit of an operand counts if these places follow it — sixteen times as much for each place
of the same operand. -/
def weight (field : Field) : Format → Nat
  | [] => 1
  | .of f :: format => if f = field then 16 * weight field format else weight field format
  | .is _ :: format => weight field format

/-- The operand written by its digits — zero if the format has none of it. -/
def read (field : Field) : Format → List Nat → Nat
  | .of f :: format, d :: digits =>
      if f = field then d * weight field format + read field format digits
      else read field format digits
  | .is _ :: format, _ :: digits => read field format digits
  | _, _ => 0

/-- The digits that write these operands, each cut to its places. -/
def write (operand : Field → Nat) : Format → List Nat
  | [] => []
  | .is d :: format => d :: write operand format
  | .of f :: format => operand f / weight f format % 16 :: write operand format

end Format

/-- The format of an opcode's words. -/
def Opcode.format : Opcode → Format
  | clearScreen => [.is 0, .is 0, .is 0xe, .is 0]
  | returnFromCall => [.is 0, .is 0, .is 0xe, .is 0xe]
  | jump => [.is 1, .of .address, .of .address, .of .address]
  | call => [.is 2, .of .address, .of .address, .of .address]
  | skipIfByte => [.is 3, .of .x, .of .byte, .of .byte]
  | skipUnlessByte => [.is 4, .of .x, .of .byte, .of .byte]
  | skipIfEqual => [.is 5, .of .x, .of .y, .is 0]
  | setByte => [.is 6, .of .x, .of .byte, .of .byte]
  | addByte => [.is 7, .of .x, .of .byte, .of .byte]
  | copy => [.is 8, .of .x, .of .y, .is 0]
  | bitOr => [.is 8, .of .x, .of .y, .is 1]
  | bitAnd => [.is 8, .of .x, .of .y, .is 2]
  | bitXor => [.is 8, .of .x, .of .y, .is 3]
  | add => [.is 8, .of .x, .of .y, .is 4]
  | subtract => [.is 8, .of .x, .of .y, .is 5]
  | shiftRight => [.is 8, .of .x, .of .y, .is 6]
  | subtractFrom => [.is 8, .of .x, .of .y, .is 7]
  | shiftLeft => [.is 8, .of .x, .of .y, .is 0xe]
  | skipUnlessEqual => [.is 9, .of .x, .of .y, .is 0]
  | setIndex => [.is 0xa, .of .address, .of .address, .of .address]
  | jumpOffset => [.is 0xb, .of .address, .of .address, .of .address]
  | random => [.is 0xc, .of .x, .of .byte, .of .byte]
  | draw => [.is 0xd, .of .x, .of .y, .of .rows]
  | readDelay => [.is 0xf, .of .x, .is 0, .is 7]
  | setDelay => [.is 0xf, .of .x, .is 1, .is 5]
  | setSound => [.is 0xf, .of .x, .is 1, .is 8]
  | addIndex => [.is 0xf, .of .x, .is 1, .is 0xe]
  | pointGlyph => [.is 0xf, .of .x, .is 2, .is 9]
  | storeDecimal => [.is 0xf, .of .x, .is 3, .is 3]
  | storeRegisters => [.is 0xf, .of .x, .is 5, .is 5]
  | loadRegisters => [.is 0xf, .of .x, .is 6, .is 5]

/-! ## Words -/

namespace Instruction

/-- The instruction a word stands for, if there is one. -/
def ofWord? (w : UInt16) : Option Instruction :=
  let digits := Word.digits w
  (Opcode.all.find? (·.format.accepts digits)).map
    fun op => op.instruction fun field => op.format.read field digits

/-- The word that stands for an instruction, operands cut to their places. -/
def toWord (i : Instruction) : UInt16 := Word.ofDigits (i.opcode.format.write i.operand)

/-! ## Byte strings -/

/-- Why no instruction can be read from the front of a byte string. -/
inductive DecodeError where
  /-- The bytes begin no instruction. -/
  | unknownOpcode
  /-- The bytes ran out. -/
  | unexpectedEnd
deriving DecidableEq, Repr

/-- Read an instruction from the front of a byte string, with the number of bytes it took.  A single
byte is reported as unfinished unless its high digit is one to seven. -/
def decode : List UInt8 → Except DecodeError (Nat × Instruction)
  | [] => .error .unexpectedEnd
  | [b] => .error (if 0x10 ≤ b ∧ b < 0x80 then .unknownOpcode else .unexpectedEnd)
  | high :: low :: _ =>
      match ofWord? (Word.ofBytes high low) with
      | some i => .ok (2, i)
      | none => .error .unknownOpcode

/-- The bytes of an instruction as they lie in memory. -/
def encode (i : Instruction) : List UInt8 := Word.bytes i.toWord

/-- Write an instruction over the front of a buffer — `none`, and nothing written, if the buffer
is too short. -/
def encodeInto (i : Instruction) (buffer : List UInt8) : Option (Nat × List UInt8) :=
  let bytes := i.encode
  if bytes.length ≤ buffer.length then some (bytes.length, bytes ++ buffer.drop bytes.length)
  else none

end Instruction

/-! ## Examples -/

example : Instruction.ofWord? 0x8ab4 = some (.add 0xa 0xb) := by decide
example : Instruction.ofWord? 0x8ab8 = none := by decide
example : (Instruction.jump 0xffff).toWord = 0x1fff := by decide
example : (Instruction.draw 1 0x12 0xff).toWord = 0xd12f := by decide

end Chip8
