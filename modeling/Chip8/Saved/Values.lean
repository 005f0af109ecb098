/-
  Saved values.

  How the machine's values are written as data and read back.  Reading asks only for what the types of
  the fields ask for:
    * a memory may have any number of bytes, a screen any number of pixels;
    * a call stack has exactly sixteen frames, but any count of live ones below 2^64;
    * an instruction may have operands wider than its word.
-/
import Chip8.CallStack
import Chip8.Switches
import Chip8.Instruction.Basic
import Chip8.Memory.Basic
import Chip8.Saved.Data
import Chip8.Screen

namespace Chip8

/-! ## Small values -/

namespace Region

/-- A region is saved as its name. -/
def saved (r : Region) : Data := .text r.name

/-- Read a region back. -/
def ofSaved? (d : Data) : Option Region :=
  match d.bareCase? with
  | some "Charset" => some .charset
  | some "Program" => some .program
  | _ => none

theorem ofSaved?_saved (r : Region) : ofSaved? r.saved = some r := by cases r <;> rfl

end Region

namespace Switches

/-- Switches are saved as a record. -/
def saved (s : Switches) : Data := .record [("debug", .bool s.tracing), ("pause", .bool s.paused)]

/-- Read switches back. -/
def ofSaved? (d : Data) : Option Switches := do
  let (debug, pause) ← d.twoFields? "debug" "pause"
  return ⟨← debug.bool?, ← pause.bool?⟩

theorem ofSaved?_saved (s : Switches) : ofSaved? s.saved = some s := rfl

end Switches

/-! ## Memory, screen and stack -/

/-- A memory is saved as the list of its bytes. -/
def Memory.saved (m : Memory) : Data :=
  .record [("memory", .list (m.bytes.toList.map fun b => .natural b.toNat))]

/-- Read a memory back, whatever its length. -/
def Memory.ofSaved? (d : Data) : Option Memory := do
  let bytes ← (← d.field? "memory").listOf? Data.byte?
  return ⟨bytes.toArray⟩

/-- A screen is saved as the list of its pixels. -/
def Screen.saved (s : Screen) : Data :=
  .record [("pixels", .list (s.pixels.toList.map .bool))]

/-- Read a screen back, whatever its number of pixels. -/
def Screen.ofSaved? (d : Data) : Option Screen := do
  let pixels ← (← d.field? "pixels").listOf? Data.bool?
  return ⟨pixels.toArray⟩

/-- A call stack is saved with its old frames. -/
def CallStack.saved (s : CallStack) : Data :=
  .record [("frames", .list (s.frames.toList.map fun a => .natural a.toNat)),
    ("len", .natural s.depth)]

/-- Read a call stack back, whatever its count of live frames. -/
def CallStack.ofSaved? (d : Data) : Option CallStack := do
  let (frames, depth) ← d.twoFields? "frames" "len"
  let frames ← frames.listOf? Data.word?
  let depth ← depth.naturalBelow? UInt64.size
  if h : frames.toArray.size = stackDepth then return ⟨⟨frames.toArray, h⟩, depth⟩ else none

/-! ## Instructions -/

namespace Instruction

/-- An instruction is saved as its name, with a record of its operands if it has any. -/
def saved (i : Instruction) : Data :=
  match i.opcode.fields with
  | [] => .text i.opcode.name
  | fields =>
      .record [(i.opcode.name,
        .record (fields.map fun field => (field.name, .natural (i.operand field))))]

/-- Read operands back — what is not among the fields is zero. -/
def operandsOfSaved? (fields : List Field) (d : Data) : Option (Field → Nat) := do
  let entries ← d.recordFields? (fields.map Field.name)
  let values ← (fields.zip entries).mapM fun (field, entry) => do
    return (field, ← entry.naturalBelow? field.bound)
  return fun field => (values.lookup field).getD 0

/-- Read an instruction back. -/
def ofSaved? (d : Data) : Option Instruction := do
  let (name, carried) ← d.case?
  let op ← Opcode.all.find? (·.name == name)
  match op.fields, carried with
  | [], none | [], some .null => return op.instruction fun _ => 0
  | field :: fields, some d => return op.instruction (← operandsOfSaved? (field :: fields) d)
  | _, _ => none

end Instruction

/-! ## Examples -/

example : Instruction.ofSaved? (.record [("jmp", .record [("A", .natural 5)])]) = some (.jump 5) := by
  decide
example : Instruction.ofSaved? (.record [("jmp", .list [.natural 5])]) = none := by decide
example : Switches.ofSaved? (.list [.bool true, .bool false]) = some ⟨true, false⟩ := by decide
example : Instruction.ofSaved? (.text "jmp") = none
    ∧ Instruction.ofSaved? (.text "cls") = some .clearScreen := by
  decide

end Chip8
