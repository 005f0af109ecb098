/-
  Executing one instruction.

  `perform` is the meaning of every instruction on a machine whose program counter already stands
  after it:
    * operands are read before anything is written, and vF is written last, so the flag wins when the
      result goes to vF as well;
    * whatever can fail is checked first, so a failed instruction leaves the machine as it was;
    * I and the program counter are sixteen bits wide and wrap there, not at the end of memory.

  Register operands of a decoded word are below sixteen.  Only an instruction put together by hand can
  name another register, and performing it crashes.
-/
import Chip8.Instruction.Format
import Chip8.Machine.Basic

namespace Chip8.Machine

variable {ρ : Type}

/-! ## Registers -/

/-- Go on with the register of this number. -/
@[inline] def withRegister (m : Machine ρ) (r : Nat) (next : Fin 16 → Outcome (Machine ρ)) :
    Outcome (Machine ρ) :=
  if h : r < 16 then next ⟨r, h⟩ else .failed (.crash .index) m

/-- The first register, the only one an instruction reads without naming it. -/
def v0 (m : Machine ρ) : UInt8 := m.v[0]

/-- Put a value into a register. -/
def setV (m : Machine ρ) (x : Fin 16) (value : UInt8) : Machine ρ := { m with v := m.v.set x value }

/-- Put a result into a register and then a flag into vF. -/
def setResult (m : Machine ρ) (x : Fin 16) (value flag : UInt8) : Machine ρ :=
  { m with v := (m.v.set x value).set 15 flag }

/-- The byte that stands for a truth value. -/
def flagOf (b : Bool) : UInt8 := if b then 1 else 0

/-- Show another screen, and note in vF whether a pixel went out. -/
def drawn (m : Machine ρ) (screen : Screen) (hit : Bool) : Machine ρ :=
  { m with screen := screen, v := m.v.set 15 (flagOf hit) }

theorem get_setV (m : Machine ρ) (x r : Fin 16) (b : UInt8) :
    (m.setV x b).v.get r = if r = x then b else m.v.get r := by
  show (m.v.set x b)[r.val] = _
  rw [Vector.getElem_set]
  by_cases h : r = x
  · rw [if_pos h, if_pos (congrArg Fin.val h.symm)]
  · rw [if_neg h, if_neg fun hval => h (Fin.ext hval.symm)]
    rfl

/-- The flag is written last, so it wins in vF. -/
theorem get_setResult (m : Machine ρ) (x r : Fin 16) (b f : UInt8) :
    (m.setResult x b f).v.get r = if r = 15 then f else if r = x then b else m.v.get r := by
  rw [← get_setV m x r b]
  exact get_setV (m.setV x b) 15 r f

@[simp] theorem screen_drawn (m : Machine ρ) (screen : Screen) (hit : Bool) :
    (m.drawn screen hit).screen = screen := rfl

@[simp] theorem memory_drawn (m : Machine ρ) (screen : Screen) (hit : Bool) :
    (m.drawn screen hit).memory = m.memory := rfl

theorem get_drawn (m : Machine ρ) (screen : Screen) (hit : Bool) (r : Fin 16) :
    (m.drawn screen hit).v.get r = if r = 15 then flagOf hit else m.v.get r :=
  get_setV m 15 r (flagOf hit)

/-! ## Control -/

/-- Step over the next instruction if a condition holds. -/
def skipWhen (m : Machine ρ) (condition : Bool) : Machine ρ :=
  { m with pc := if condition then m.pc + 2 else m.pc }

/-- Return to the newest address on the stack. -/
def returnFromCall (m : Machine ρ) : Outcome (Machine ρ) :=
  match m.stack.pop with
  | (.ok (some address), stack) => .done { m with stack := stack, pc := address }
  | (.ok none, _) => .failed (.error (.stackUnderflow m.pc)) m
  | (.error crash, stack) => .failed (.crash crash) { m with stack := stack }

/-- Call a subroutine. -/
def call (m : Machine ρ) (address : UInt16) : Outcome (Machine ρ) :=
  match m.stack.push m.pc with
  | some stack => .done { m with stack := stack, pc := address }
  | none => .failed (.error (.stackOverflow m.pc stackDepth)) m

/-! ## Memory -/

/-- Store a block of bytes at I. -/
def storeBlock (m : Machine ρ) (block : List UInt8) : Outcome (Machine ρ) :=
  match m.memory.check m.index.toNat (m.index.toNat + block.length) with
  | .ok () => .done { m with memory := m.memory.splice m.index.toNat block }
  | .error e => .failed (.error e) m

/-- A block is stored if it fits into memory; else nothing is, and the first address outside is reported. -/
theorem storeBlock_eq (m : Machine ρ) (block : List UInt8) : m.storeBlock block
    = if m.index.toNat + block.length ≤ m.memory.length
      then .done { m with memory := m.memory.splice m.index.toNat block }
      else .failed (.error (.invalidAddress (max m.index.toNat m.memory.length))) m := by
  rw [storeBlock, Memory.check_add]
  by_cases hfit : m.index.toNat + block.length ≤ m.memory.length
  · rw [if_pos hfit, if_pos hfit]
  · rw [if_neg hfit, if_neg hfit]

/-- The decimal digits of a byte, hundreds first. -/
def decimalDigits (b : UInt8) : List UInt8 := [b / 100 % 10, b / 10 % 10, b % 10]

/-- The registers v0 to vX. -/
def registersUpTo (m : Machine ρ) (x : Fin 16) : List UInt8 := m.v.toList.take (x + 1)

@[simp] theorem length_registersUpTo (m : Machine ρ) (x : Fin 16) :
    (m.registersUpTo x).length = x + 1 := by
  rw [registersUpTo, List.length_take, Vector.length_toList]
  omega

/-- The registers with the first of them taken from a list. -/
def overwriteRegisters (v : Vector UInt8 16) (values : List UInt8) : Vector UInt8 16 :=
  Vector.ofFn fun r : Fin 16 => values[r.val]?.getD (v.get r)

/-- Load v0 to vX from I. -/
def loadRegisters (m : Machine ρ) (x : Fin 16) : Outcome (Machine ρ) :=
  match m.memory.slice m.index.toNat (m.index.toNat + x + 1) with
  | .ok values => .done { m with v := overwriteRegisters m.v values }
  | .error e => .failed (.error e) m

/-- As many bytes are loaded as there are registers up to vX, if they are all in memory. -/
theorem loadRegisters_eq (m : Machine ρ) (x : Fin 16) : m.loadRegisters x
    = if m.index.toNat + x + 1 ≤ m.memory.length
      then .done { m with
        v := overwriteRegisters m.v
          (m.memory.bytes.extract m.index.toNat (m.index.toNat + x + 1)).toList }
      else .failed (.error (.invalidAddress (max m.index.toNat m.memory.length))) m := by
  rw [loadRegisters, Nat.add_assoc, Memory.slice_add]
  by_cases hfit : m.index.toNat + (x + 1) ≤ m.memory.length
  · rw [if_pos hfit, if_pos hfit]
  · rw [if_neg hfit, if_neg hfit]

/-! ## Drawing -/

/-- Draw a sprite of `rows` bytes with its upper left corner at (vX, vY).  The corner wraps around the
screen, the sprite is clipped at the right and at the bottom, and only the rows that are on the screen
are read.  vF becomes one if a lit pixel went out. -/
def drawSprite (m : Machine ρ) (x y : Fin 16) (rows : UInt8) : Outcome (Machine ρ) :=
  let left := (m.v.get x).toNat % Screen.width
  let top := (m.v.get y).toNat % Screen.height
  let visible := min rows.toNat (Screen.height - top)
  match m.memory.slice m.index.toNat (m.index.toNat + visible) with
  | .error e => .failed (.error e) m
  | .ok sprite =>
      match Screen.plot (Screen.spriteCells left top sprite) m.screen false with
      | (.ok hit, screen) => .done (m.drawn screen hit)
      | (.error crash, screen) => .failed (.crash crash) (m.drawn screen false)

/-! ## The instruction set -/

/-- Carry out an instruction. -/
def perform [ByteSource ρ] (m : Machine ρ) : Instruction → Outcome (Machine ρ)
  | .clearScreen => .done { m with screen := m.screen.clear }
  | .returnFromCall => m.returnFromCall
  | .jump a => .done { m with pc := a }
  | .call a => m.call a
  | .skipIfByte x b => m.withRegister x fun x => .done (m.skipWhen (m.v.get x == b))
  | .skipUnlessByte x b => m.withRegister x fun x => .done (m.skipWhen (m.v.get x != b))
  | .skipIfEqual x y => m.withRegister x fun x => m.withRegister y fun y =>
      .done (m.skipWhen (m.v.get x == m.v.get y))
  | .setByte x b => m.withRegister x fun x => .done (m.setV x b)
  | .addByte x b => m.withRegister x fun x => .done (m.setV x (m.v.get x + b))
  | .copy x y => m.withRegister x fun x => m.withRegister y fun y => .done (m.setV x (m.v.get y))
  | .bitOr x y => m.withRegister x fun x => m.withRegister y fun y =>
      .done (m.setV x (m.v.get x ||| m.v.get y))
  | .bitAnd x y => m.withRegister x fun x => m.withRegister y fun y =>
      .done (m.setV x (m.v.get x &&& m.v.get y))
  | .bitXor x y => m.withRegister x fun x => m.withRegister y fun y =>
      .done (m.setV x (m.v.get x ^^^ m.v.get y))
  | .add x y => m.withRegister x fun x => m.withRegister y fun y =>
      .done (m.setResult x (m.v.get x + m.v.get y)
        (flagOf (256 ≤ (m.v.get x).toNat + (m.v.get y).toNat)))
  | .subtract x y => m.withRegister x fun x => m.withRegister y fun y =>
      .done (m.setResult x (m.v.get x - m.v.get y) (flagOf (m.v.get y ≤ m.v.get x)))
  | .shiftRight x _ => m.withRegister x fun x =>
      .done (m.setResult x (m.v.get x >>> 1) (m.v.get x &&& 1))
  | .subtractFrom x y => m.withRegister x fun x => m.withRegister y fun y =>
      .done (m.setResult x (m.v.get y - m.v.get x) (flagOf (m.v.get x ≤ m.v.get y)))
  | .shiftLeft x _ => m.withRegister x fun x =>
      .done (m.setResult x (m.v.get x <<< 1) (m.v.get x >>> 7))
  | .skipUnlessEqual x y => m.withRegister x fun x => m.withRegister y fun y =>
      .done (m.skipWhen (m.v.get x != m.v.get y))
  | .setIndex a => .done { m with index := a }
  | .jumpOffset a => .done { m with pc := a + m.v0.toUInt16 }
  | .random x b => m.withRegister x fun x =>
      let (byte, random) := ByteSource.next m.random
      .done { m.setV x (byte &&& b) with random := random }
  | .draw x y rows => m.withRegister x fun x => m.withRegister y fun y => m.drawSprite x y rows
  | .readDelay x => m.withRegister x fun x => .done (m.setV x m.delay)
  | .setDelay x => m.withRegister x fun x => .done { m with delay := m.v.get x }
  | .setSound x => m.withRegister x fun x => .done { m with sound := m.v.get x }
  | .addIndex x => m.withRegister x fun x =>
      .done { m with index := m.index + (m.v.get x).toUInt16 }
  | .pointGlyph x => m.withRegister x fun x =>
      .done { m with index := UInt16.ofNat (fontStart + glyphSize * (m.v.get x).toNat) }
  | .storeDecimal x => m.withRegister x fun x => m.storeBlock (decimalDigits (m.v.get x))
  | .storeRegisters x => m.withRegister x fun x => m.storeBlock (m.registersUpTo x)
  | .loadRegisters x => m.withRegister x fun x => m.loadRegisters x

/-- Carry out the instruction a word stands for, without fetching it. -/
def executeWord [ByteSource ρ] (m : Machine ρ) (w : UInt16) : Outcome (Machine ρ) :=
  match Instruction.ofWord? w with
  | some i => m.perform i
  | none => .failed (.error (.unimplemented w)) m

/-- Carry out words one after the other, up to the first that fails. -/
def executeWords [ByteSource ρ] : List UInt16 → Machine ρ → Outcome (Machine ρ)
  | [], m => .done m
  | w :: ws, m =>
      match m.executeWord w with
      | .done m => executeWords ws m
      | .failed f m => .failed f m

/-- Carry out a list of words several times over, up to the first word that fails. -/
def executeRounds [ByteSource ρ] : Nat → List UInt16 → Machine ρ → Outcome (Machine ρ)
  | 0, _, m => .done m
  | _ + 1, [], m => .done m
  | n + 1, w :: ws, m =>
      match executeWords (w :: ws) m with
      | .done m => executeRounds n (w :: ws) m
      | .failed f m => .failed f m

/-! ## Examples -/

example : decimalDigits 207 = [2, 0, 7] := by decide

end Chip8.Machine
