/-
  Assembly text.

  A mnemonic padded to seven columns, then the operands, source first and destination last.  Addresses
  have at least three digits, bytes two, and a count of rows one; register numbers are capitals.  Wide
  operands are written in full, not cut to what a word could hold.
-/
import Chip8.Instruction.Format
import Chip8.Text.Hex

namespace Chip8

namespace Instruction

/-- The name of a register. -/
def registerText (r : Nat) : String := "v" ++ Hex.upper r

/-- A byte operand. -/
def byteText (b : UInt8) : String := "#" ++ Hex.padded 2 b.toNat

/-- A bare address. -/
def addressText (a : UInt16) : String := Hex.padded 3 a.toNat

/-- The text of an instruction. -/
def text : Instruction → String
  | clearScreen => "cls    "
  | returnFromCall => "ret    "
  | jump a => "jmp    " ++ addressText a
  | call a => "call   " ++ addressText a
  | skipIfByte x b => "se     " ++ byteText b ++ ", " ++ registerText x
  | skipUnlessByte x b => "sne    " ++ byteText b ++ ", " ++ registerText x
  | skipIfEqual x y => "se     " ++ registerText y ++ ", " ++ registerText x
  | setByte x b => "mov    " ++ byteText b ++ ", " ++ registerText x
  | addByte x b => "add    " ++ byteText b ++ ", " ++ registerText x
  | copy x y => "mov    " ++ registerText y ++ ", " ++ registerText x
  | bitOr x y => "or     " ++ registerText y ++ ", " ++ registerText x
  | bitAnd x y => "and    " ++ registerText y ++ ", " ++ registerText x
  | bitXor x y => "xor    " ++ registerText y ++ ", " ++ registerText x
  | add x y => "add    " ++ registerText y ++ ", " ++ registerText x
  | subtract x y => "sub    " ++ registerText y ++ ", " ++ registerText x
  | shiftRight x _ => "shr    " ++ registerText x
  | subtractFrom x y => "bsub   " ++ registerText y ++ ", " ++ registerText x
  | shiftLeft x _ => "shl    " ++ registerText x
  | skipUnlessEqual x y => "sne    " ++ registerText y ++ ", " ++ registerText x
  | setIndex a => "mov    $" ++ addressText a ++ ", I"
  | jumpOffset a => "jmp    $" ++ addressText a ++ "+v0"
  | random x b => "rand   " ++ byteText b ++ ", " ++ registerText x
  | draw x y rows =>
      "draw   #" ++ Hex.lower rows.toNat ++ ", " ++ registerText x ++ ", " ++ registerText y
  | readDelay x => "mov    DT, " ++ registerText x
  | setDelay x => "mov    " ++ registerText x ++ ", DT"
  | setSound x => "mov    " ++ registerText x ++ ", ST"
  | addIndex x => "add    " ++ registerText x ++ ", I"
  | pointGlyph x => "font   " ++ registerText x ++ ", I"
  | storeDecimal x => "bcd    " ++ registerText x ++ ", &I"
  | storeRegisters x => "dmao   " ++ registerText x
  | loadRegisters x => "dmai   " ++ registerText x

end Instruction

/-- The text of a word — of its instruction, or the bare digits of one that has none. -/
def Word.text (w : UInt16) : String :=
  match Instruction.ofWord? w with
  | some i => i.text
  | none => "inval  " ++ Hex.padded 4 w.toNat

/-! ## Examples -/

example : Word.text 0xd125 = "draw   #5, v1, v2" := by decide
example : Word.text 0x00e1 = "inval  00e1" := by decide

end Chip8
