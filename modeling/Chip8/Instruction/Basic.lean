/-
  The instruction set, decoded.

  `Instruction` is what the machine executes — one constructor for each of the thirty-one
  instructions, with its operands.  Operands may be wider than the bits a word has for them: a value
  read in from outside can name register 4096, and its text says so.

  `Opcode` forgets the operands and `Field` names one of them, so that anything that treats all
  instructions alike (formats, saved values, reports) can be a table:
    * `Instruction.opcode` and `Instruction.operand` take an instruction apart;
    * `Opcode.instruction` puts one together.
-/

namespace Chip8

/-! ## Instructions -/

/-- A decoded instruction.  `x` and `y` are register numbers. -/
inductive Instruction where
  /-- Turn every pixel off. -/
  | clearScreen
  /-- Go back to the newest return address. -/
  | returnFromCall
  /-- Continue at `address`. -/
  | jump (address : UInt16)
  /-- Push the current address, then continue at `address`. -/
  | call (address : UInt16)
  /-- Skip the next instruction if vX equals `byte`. -/
  | skipIfByte (x : Nat) (byte : UInt8)
  /-- Skip the next instruction if vX differs from `byte`. -/
  | skipUnlessByte (x : Nat) (byte : UInt8)
  /-- Skip the next instruction if vX equals vY. -/
  | skipIfEqual (x y : Nat)
  /-- Put `byte` into vX. -/
  | setByte (x : Nat) (byte : UInt8)
  /-- Add `byte` to vX, leaving vF alone. -/
  | addByte (x : Nat) (byte : UInt8)
  /-- Put vY into vX. -/
  | copy (x y : Nat)
  /-- Join the bits of vY into vX. -/
  | bitOr (x y : Nat)
  /-- Keep the bits of vX that vY has too. -/
  | bitAnd (x y : Nat)
  /-- Flip the bits of vX that vY has. -/
  | bitXor (x y : Nat)
  /-- Add vY to vX; vF becomes the carry. -/
  | add (x y : Nat)
  /-- Subtract vY from vX; vF becomes one unless there was a borrow. -/
  | subtract (x y : Nat)
  /-- Halve vX; vF becomes the bit shifted out.  vY plays no part. -/
  | shiftRight (x y : Nat)
  /-- Put vY minus vX into vX; vF becomes one unless there was a borrow. -/
  | subtractFrom (x y : Nat)
  /-- Double vX; vF becomes the bit shifted out.  vY plays no part. -/
  | shiftLeft (x y : Nat)
  /-- Skip the next instruction if vX differs from vY. -/
  | skipUnlessEqual (x y : Nat)
  /-- Put `address` into I. -/
  | setIndex (address : UInt16)
  /-- Continue at `address` plus v0. -/
  | jumpOffset (address : UInt16)
  /-- Put a random byte, masked with `byte`, into vX. -/
  | random (x : Nat) (byte : UInt8)
  /-- Draw the `rows` sprite bytes at I with the upper left corner at (vX, vY). -/
  | draw (x y : Nat) (rows : UInt8)
  /-- Put the delay timer into vX. -/
  | readDelay (x : Nat)
  /-- Put vX into the delay timer. -/
  | setDelay (x : Nat)
  /-- Put vX into the sound timer. -/
  | setSound (x : Nat)
  /-- Add vX to I. -/
  | addIndex (x : Nat)
  /-- Point I at the glyph of digit vX. -/
  | pointGlyph (x : Nat)
  /-- Store the three decimal digits of vX at I. -/
  | storeDecimal (x : Nat)
  /-- Store v0 up to vX at I. -/
  | storeRegisters (x : Nat)
  /-- Load v0 up to vX from I. -/
  | loadRegisters (x : Nat)
deriving DecidableEq, Repr

/-! ## Opcodes and operands -/

/-- An instruction without its operands. -/
inductive Opcode where
  | clearScreen | returnFromCall | jump | call | skipIfByte | skipUnlessByte | skipIfEqual
  | setByte | addByte | copy | bitOr | bitAnd | bitXor | add | subtract | shiftRight
  | subtractFrom | shiftLeft | skipUnlessEqual | setIndex | jumpOffset | random | draw
  | readDelay | setDelay | setSound | addIndex | pointGlyph | storeDecimal | storeRegisters
  | loadRegisters
deriving DecidableEq, Repr

/-- An operand — an address, a byte, a number of sprite rows, or one of two registers. -/
inductive Field where
  | address | byte | rows | x | y
deriving DecidableEq, Repr

namespace Opcode

/-- Every opcode, in the order of their words. -/
def all : List Opcode :=
  [clearScreen, returnFromCall, jump, call, skipIfByte, skipUnlessByte, skipIfEqual, setByte,
   addByte, copy, bitOr, bitAnd, bitXor, add, subtract, shiftRight, subtractFrom, shiftLeft,
   skipUnlessEqual, setIndex, jumpOffset, random, draw, readDelay, setDelay, setSound, addIndex,
   pointGlyph, storeDecimal, storeRegisters, loadRegisters]

theorem mem_all (op : Opcode) : op ∈ all := by cases op <;> decide

/-- The operands of an opcode, in the order in which values and reports list them. -/
def fields : Opcode → List Field
  | clearScreen | returnFromCall => []
  | jump | call | setIndex | jumpOffset => [.address]
  | skipIfByte | skipUnlessByte | setByte | addByte | random => [.byte, .x]
  | copy => [.x, .y]
  | skipIfEqual | bitOr | bitAnd | bitXor | add | subtract | shiftRight | subtractFrom
  | shiftLeft | skipUnlessEqual => [.y, .x]
  | draw => [.y, .x, .rows]
  | readDelay | setDelay | setSound | addIndex | pointGlyph | storeDecimal | storeRegisters
  | loadRegisters => [.x]

/-- The short name of an opcode in saved values and reports. -/
def name : Opcode → String
  | clearScreen => "cls"
  | returnFromCall => "ret"
  | jump => "jmp"
  | call => "call"
  | skipIfByte => "seb"
  | skipUnlessByte => "sneb"
  | skipIfEqual => "se"
  | setByte => "movb"
  | addByte => "addb"
  | copy => "mov"
  | bitOr => "or"
  | bitAnd => "and"
  | bitXor => "xor"
  | add => "add"
  | subtract => "sub"
  | shiftRight => "shr"
  | subtractFrom => "bsub"
  | shiftLeft => "shl"
  | skipUnlessEqual => "sne"
  | setIndex => "movI"
  | jumpOffset => "jmpr"
  | random => "rand"
  | draw => "draw"
  | readDelay => "getdt"
  | setDelay => "setdt"
  | setSound => "movst"
  | addIndex => "addI"
  | pointGlyph => "font"
  | storeDecimal => "bcd"
  | storeRegisters => "dmao"
  | loadRegisters => "dmai"

/-- The instruction with the given operands, each cut to the width of its type. -/
def instruction (op : Opcode) (operand : Field → Nat) : Instruction :=
  let a := UInt16.ofNat (operand .address)
  let b := UInt8.ofNat (operand .byte)
  let r := UInt8.ofNat (operand .rows)
  let x := operand .x
  let y := operand .y
  match op with
  | clearScreen => .clearScreen
  | returnFromCall => .returnFromCall
  | jump => .jump a
  | call => .call a
  | skipIfByte => .skipIfByte x b
  | skipUnlessByte => .skipUnlessByte x b
  | skipIfEqual => .skipIfEqual x y
  | setByte => .setByte x b
  | addByte => .addByte x b
  | copy => .copy x y
  | bitOr => .bitOr x y
  | bitAnd => .bitAnd x y
  | bitXor => .bitXor x y
  | add => .add x y
  | subtract => .subtract x y
  | shiftRight => .shiftRight x y
  | subtractFrom => .subtractFrom x y
  | shiftLeft => .shiftLeft x y
  | skipUnlessEqual => .skipUnlessEqual x y
  | setIndex => .setIndex a
  | jumpOffset => .jumpOffset a
  | random => .random x b
  | draw => .draw x y r
  | readDelay => .readDelay x
  | setDelay => .setDelay x
  | setSound => .setSound x
  | addIndex => .addIndex x
  | pointGlyph => .pointGlyph x
  | storeDecimal => .storeDecimal x
  | storeRegisters => .storeRegisters x
  | loadRegisters => .loadRegisters x

end Opcode

namespace Field

/-- The name of an operand in saved values and reports. -/
def name : Field → String
  | address => "A"
  | byte => "B"
  | rows => "n"
  | x => "x"
  | y => "y"

/-- The first number too large for an operand of a decoded instruction. -/
def bound : Field → Nat
  | address => UInt16.size
  | byte | rows => UInt8.size
  | x | y => UInt64.size

end Field

namespace Instruction

/-- The opcode of an instruction. -/
def opcode : Instruction → Opcode
  | clearScreen => .clearScreen
  | returnFromCall => .returnFromCall
  | jump _ => .jump
  | call _ => .call
  | skipIfByte .. => .skipIfByte
  | skipUnlessByte .. => .skipUnlessByte
  | skipIfEqual .. => .skipIfEqual
  | setByte .. => .setByte
  | addByte .. => .addByte
  | copy .. => .copy
  | bitOr .. => .bitOr
  | bitAnd .. => .bitAnd
  | bitXor .. => .bitXor
  | add .. => .add
  | subtract .. => .subtract
  | shiftRight .. => .shiftRight
  | subtractFrom .. => .subtractFrom
  | shiftLeft .. => .shiftLeft
  | skipUnlessEqual .. => .skipUnlessEqual
  | setIndex _ => .setIndex
  | jumpOffset _ => .jumpOffset
  | random .. => .random
  | draw .. => .draw
  | readDelay _ => .readDelay
  | setDelay _ => .setDelay
  | setSound _ => .setSound
  | addIndex _ => .addIndex
  | pointGlyph _ => .pointGlyph
  | storeDecimal _ => .storeDecimal
  | storeRegisters _ => .storeRegisters
  | loadRegisters _ => .loadRegisters

/-- The value of an operand — zero for one that the instruction does not have. -/
def operand : Instruction → Field → Nat
  | jump a, .address | call a, .address | setIndex a, .address | jumpOffset a, .address => a.toNat
  | skipIfByte _ b, .byte | skipUnlessByte _ b, .byte | setByte _ b, .byte | addByte _ b, .byte
  | random _ b, .byte => b.toNat
  | skipIfByte x _, .x | skipUnlessByte x _, .x | setByte x _, .x | addByte x _, .x
  | random x _, .x => x
  | skipIfEqual x _, .x | copy x _, .x | bitOr x _, .x | bitAnd x _, .x | bitXor x _, .x
  | add x _, .x | subtract x _, .x | shiftRight x _, .x | subtractFrom x _, .x | shiftLeft x _, .x
  | skipUnlessEqual x _, .x => x
  | skipIfEqual _ y, .y | copy _ y, .y | bitOr _ y, .y | bitAnd _ y, .y | bitXor _ y, .y
  | add _ y, .y | subtract _ y, .y | shiftRight _ y, .y | subtractFrom _ y, .y | shiftLeft _ y, .y
  | skipUnlessEqual _ y, .y => y
  | draw x _ _, .x => x
  | draw _ y _, .y => y
  | draw _ _ rows, .rows => rows.toNat
  | readDelay x, .x | setDelay x, .x | setSound x, .x | addIndex x, .x | pointGlyph x, .x
  | storeDecimal x, .x | storeRegisters x, .x | loadRegisters x, .x => x
  | _, _ => 0

/-- An instruction is its opcode and its operands. -/
theorem instruction_opcode_operand (i : Instruction) : i.opcode.instruction i.operand = i := by
  cases i <;> simp [opcode, operand, Opcode.instruction]

theorem opcode_instruction (op : Opcode) (operand : Field → Nat) :
    (op.instruction operand).opcode = op := by
  cases op <;> rfl

end Instruction

end Chip8
