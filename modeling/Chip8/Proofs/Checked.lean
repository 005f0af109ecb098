/-
  The machine with every check spelled out.

  `Machine` counts addresses, rows and frames in natural numbers, which never overflow.  A real machine
  counts in words of 16 or 64 bits, and stops where a number leaves its word, an index its array, or a
  block the place it is copied to.  `Checked` is that machine: every operation is carried out one
  arithmetic step and one access at a time, and each step that may go wrong may trap.
    * Adding with wrap-around, comparing and shifting by a constant cannot trap, so an instruction that
      does nothing else is taken over from `Machine.perform` (`untrapped`).
    * A sprite is drawn by two nested loops that leave off at the edges, pixel by pixel.
    * Loading a program clears the program memory first, copies the program in, and reads it back.

  That no trap is ever sprung on a reachable machine is the subject of `Chip8.Proofs.Safety`.
-/
import Chip8.Proofs.Operation

namespace Chip8

/-- What a checked computation may stop at. -/
inductive Trap where
  /-- A number that does not fit into its word, or a negative one. -/
  | overflow
  /-- An index past the end. -/
  | index
  /-- A range that is not inside the row it is taken from. -/
  | slice
  /-- A block put over a place of another length. -/
  | copy
  /-- A pixel that is not on the screen. -/
  | offScreen
  /-- A program that does not read back as it was loaded. -/
  | assertion
deriving DecidableEq, Repr

namespace Checked

variable {α ρ : Type}

/-! ## Arithmetic and accesses -/

/-- A sum in a word that has so many values. -/
def sum (size a b : Nat) : Except Trap Nat :=
  if a + b < size then .ok (a + b) else .error .overflow

/-- A product in a word that has so many values. -/
def product (size a b : Nat) : Except Trap Nat :=
  if a * b < size then .ok (a * b) else .error .overflow

/-- A difference, which must not be negative. -/
def difference (a b : Nat) : Except Trap Nat := if b ≤ a then .ok (a - b) else .error .overflow

/-- A word of so many bits, shifted right by less than that. -/
def shifted (bits a k : Nat) : Except Trap Nat := if k < bits then .ok (a >>> k) else .error .overflow

/-- The value at an index. -/
def item (row : Array α) (k : Nat) : Except Trap α :=
  match row[k]? with
  | some a => .ok a
  | none => .error .index

/-- The values of `start..stop`. -/
def part (row : List α) (start stop : Nat) : Except Trap (List α) :=
  if start ≤ stop ∧ stop ≤ row.length then .ok ((row.drop start).take (stop - start))
  else .error .slice

/-- A block that is put over a place of so many values. -/
def fitted (count : Nat) (block : List α) : Except Trap (List α) :=
  if block.length = count then .ok block else .error .copy

/-! ## Drawing -/

/-- The place of a pixel in the row of pixels. -/
def place (x y : Nat) : Except Trap Nat :=
  if x < Screen.width ∧ y < Screen.height then do
    let above ← product UInt64.size y Screen.width
    sum UInt64.size above x
  else .error .offScreen

/-- Is the pixel lit? -/
def getPixel (s : Screen) (x y : Nat) : Except Trap Bool := do
  let k ← place x y
  item s.pixels k

/-- Turn a pixel on or off. -/
def setPixel (s : Screen) (x y : Nat) (lit : Bool) : Except Trap Screen := do
  let k ← place x y
  if h : k < s.pixels.size then .ok ⟨s.pixels.set k lit h⟩ else .error .index

/-- Draw some bits of a sprite byte, leaving off at the right edge. -/
def drawBits (left y : Nat) (b : UInt8) : List Nat → Screen → Bool → Except Trap (Screen × Bool)
  | [], s, hit => .ok (s, hit)
  | bit :: bits, s, hit => do
      let x ← sum UInt64.size left bit
      let mask ← shifted 8 0x80 bit
      let lit := (b.toNat &&& mask) != 0
      let was ← getPixel s x y
      let s ← setPixel s x y (lit ^^ was)
      let hit := hit || (lit && was)
      let right ← difference Screen.width 1
      if x = right then .ok (s, hit) else drawBits left y b bits s hit

/-- Draw some numbered rows of a sprite, leaving off at the lower edge. -/
def drawRows (left top : Nat) : List (UInt8 × Nat) → Screen → Bool → Except Trap (Screen × Bool)
  | [], s, hit => .ok (s, hit)
  | (b, line) :: rows, s, hit => do
      let y ← sum UInt64.size top line
      let (s, hit) ← drawBits left y b (List.range 8) s hit
      let bottom ← difference Screen.height 1
      if y = bottom then .ok (s, hit) else drawRows left top rows s hit

/-! ## Instructions -/

/-- An outcome, if it is not a crash. -/
def untrapped : Outcome (Machine ρ) → Except Trap (Outcome (Machine ρ))
  | .failed (.crash .index) _ => .error .index
  | .failed (.crash (.offScreen ..)) _ => .error .offScreen
  | o => .ok o

/-- Call a subroutine. -/
def call (m : Machine ρ) (a : UInt16) : Except Trap (Outcome (Machine ρ)) :=
  if h : m.stack.depth < stackDepth then do
    let depth ← sum UInt64.size m.stack.depth 1
    return .done { m with stack := ⟨m.stack.frames.set m.stack.depth m.pc h, depth⟩, pc := a }
  else .ok (.failed (.error (.stackOverflow m.pc stackDepth)) m)

/-- Draw a sprite. -/
def draw (m : Machine ρ) (x y : Nat) (count : UInt8) : Except Trap (Outcome (Machine ρ)) := do
  let vx ← item m.v.toArray x
  let vy ← item m.v.toArray y
  let left := vx.toNat % Screen.width
  let top := vy.toNat % Screen.height
  let room ← difference Screen.height top
  let stop ← sum UInt64.size m.index.toNat (min count.toNat room)
  match m.memory.slice m.index.toNat stop with
  | .error e => return .failed (.error e) m
  | .ok sprite =>
      let (screen, hit) ← drawRows left top sprite.zipIdx m.screen false
      return .done (m.drawn screen hit)

/-- Point I at a glyph — the one sum and the one product that stay in sixteen bits without wrapping. -/
def pointGlyph (m : Machine ρ) (x : Nat) : Except Trap (Outcome (Machine ρ)) := do
  let vx ← item m.v.toArray x
  let offset ← product UInt16.size glyphSize vx.toNat
  let address ← sum UInt16.size fontStart offset
  return .done { m with index := UInt16.ofNat address }

/-- Store a block over the bytes from I up to an address. -/
def storeUpTo (m : Machine ρ) (stop : Nat) (block : List UInt8) :
    Except Trap (Outcome (Machine ρ)) :=
  match m.memory.check m.index.toNat stop with
  | .error e => .ok (.failed (.error e) m)
  | .ok () => do
      let count ← difference stop m.index.toNat
      let block ← fitted count block
      return .done { m with memory := m.memory.splice m.index.toNat block }

/-- Store the decimal digits of a register. -/
def storeDecimal (m : Machine ρ) (x : Nat) : Except Trap (Outcome (Machine ρ)) := do
  let vx ← item m.v.toArray x
  let stop ← sum UInt64.size m.index.toNat 3
  storeUpTo m stop (Machine.decimalDigits vx)

/-- The address after a byte for every register up to a number. -/
def afterRegisters (m : Machine ρ) (x : Nat) : Except Trap Nat := do
  let last ← sum UInt64.size m.index.toNat x
  sum UInt64.size last 1

/-- The registers up to a number. -/
def registersUpTo (m : Machine ρ) (x : Nat) : Except Trap (List UInt8) := do
  let count ← sum UInt64.size x 1
  part m.v.toList 0 count

/-- Store the registers up to a number. -/
def storeRegisters (m : Machine ρ) (x : Nat) : Except Trap (Outcome (Machine ρ)) := do
  let stop ← afterRegisters m x
  let block ← registersUpTo m x
  storeUpTo m stop block

/-- Load the registers up to a number. -/
def loadRegisters (m : Machine ρ) (x : Nat) : Except Trap (Outcome (Machine ρ)) := do
  let stop ← afterRegisters m x
  match m.memory.slice m.index.toNat stop with
  | .error e => return .failed (.error e) m
  | .ok values =>
      let old ← registersUpTo m x
      let values ← fitted old.length values
      return .done { m with v := Machine.overwriteRegisters m.v values }

variable [ByteSource ρ]

/-- Carry out an instruction. -/
def perform (m : Machine ρ) : Instruction → Except Trap (Outcome (Machine ρ))
  | .call a => call m a
  | .draw x y rows => draw m x y rows
  | .pointGlyph x => pointGlyph m x
  | .storeDecimal x => storeDecimal m x
  | .storeRegisters x => storeRegisters m x
  | .loadRegisters x => loadRegisters m x
  | i => untrapped (m.perform i)

/-- Carry out the instruction a word stands for. -/
def executeWord (m : Machine ρ) (w : UInt16) : Except Trap (Outcome (Machine ρ)) :=
  match Instruction.ofWord? w with
  | some i => perform m i
  | none => .ok (.failed (.error (.unimplemented w)) m)

/-! ## Operations -/

/-- Load a program. -/
def load (m : Machine ρ) (program : List UInt8) : Except Trap (Outcome (Machine ρ)) :=
  if Region.programLength < program.length then
    .ok (.failed (.error (.programTooLarge program.length Region.programLength)) m)
  else do
    let space ← part m.memory.bytes.toList programStart memorySize
    let cleared := m.memory.splice programStart (List.replicate space.length 0)
    let front ← part space 0 program.length
    let block ← fitted front.length program
    let memory := cleared.splice programStart block
    let stop ← sum UInt64.size programStart program.length
    let loaded ← part memory.bytes.toList programStart stop
    if loaded = program then return .done { m with memory := memory } else .error .assertion

/-- The word at the program counter. -/
def fetch (m : Machine ρ) : Except Trap (Except Error UInt16) :=
  match m.memory.get m.pc.toNat with
  | .error e => .ok (.error e)
  | .ok high => do
      let next ← sum UInt64.size m.pc.toNat 1
      match m.memory.get next with
      | .error e => return .error e
      | .ok low => return .ok (Word.ofBytes high low)

/-- Take one step. -/
def step (m : Machine ρ) : Except Trap (Outcome (Machine ρ)) :=
  if m.switches.paused then .ok (.done m)
  else do
    match ← fetch m with
    | .error e => return .failed (.error e) m
    | .ok w =>
        let cycle ← sum UInt64.size m.cycle.toNat 1
        executeWord { m.advance w with cycle := UInt64.ofNat cycle } w

/-- Take a number of steps. -/
def steps : Nat → Machine ρ → Except Trap (Outcome (Machine ρ))
  | 0, m => .ok (.done m)
  | n + 1, m => do
      match ← step m with
      | .failed fault m => return .failed fault m
      | .done m => steps n m

/-- Carry out an operation. -/
def apply (m : Machine ρ) : Operation → Except Trap (Outcome (Machine ρ))
  | .load program => load m program
  | .executeWord w => executeWord m w
  | .step => step m
  | .steps n => steps n m
  | .frame pace _ _ => do
      match ← steps pace.stepsPerFrame m with
      | .failed fault m => return .failed fault m
      | .done m => return .done m.tick
  | op => untrapped (op.apply m)

end Checked

end Chip8
