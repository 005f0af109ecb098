/-
  Inspection.

  The full text of a value, for a reader who wants every field.  A value with named fields is its name
  and then the fields between braces, `Name { field: value, other: value }`; a list stands in square
  brackets.  Numbers are decimal throughout.
-/
import Chip8.Emulator.Run
import Chip8.Instruction.Basic

namespace Chip8

/-! ## Shapes -/

namespace Inspect

/-- A list in brackets. -/
def list (items : List String) : String := "[" ++ ", ".intercalate items ++ "]"

/-- Named fields between braces, after a name. -/
def record (name : String) (fields : List (String × String)) : String :=
  name ++ " \x7b " ++ ", ".intercalate (fields.map fun (field, value) => field ++ ": " ++ value)
    ++ " \x7d"

/-- A record that keeps some of its fields to itself. -/
def openRecord (name : String) (fields : List (String × String)) : String :=
  name ++ " \x7b " ++ String.join (fields.map fun (field, value) => field ++ ": " ++ value ++ ", ")
    ++ ".. \x7d"

/-- A truth value. -/
def bool (b : Bool) : String := if b then "true" else "false"

/-- Text in quotes; quotes and backslashes inside are marked. -/
def quoted (s : String) : String :=
  "\"" ++ String.ofList (s.toList.flatMap fun c => if c = '"' ∨ c = '\\' then ['\\', c] else [c])
    ++ "\""

end Inspect

open Inspect

/-! ## Values -/

/-- A raw instruction word in full. -/
def Word.inspect (w : UInt16) : String := "Instruction(" ++ Nat.repr w.toNat ++ ")"

/-- An instruction in full. -/
def Instruction.inspect (i : Instruction) : String :=
  match i.opcode.fields with
  | [] => i.opcode.name
  | fields => record i.opcode.name (fields.map fun f => (f.name, Nat.repr (i.operand f)))

/-- A region in full. -/
def Region.inspect (r : Region) : String := r.name

/-- Switches in full. -/
def Switches.inspect (s : Switches) : String :=
  record "Flags" [("debug", bool s.tracing), ("pause", bool s.paused)]

/-- A memory in full. -/
def Memory.inspect (m : Memory) : String :=
  record "Mem" [("memory", list (m.bytes.toList.map fun b => Nat.repr b.toNat))]

/-- A screen in full. -/
def Screen.inspect (s : Screen) : String :=
  record "Screen" [("pixels", list (s.pixels.toList.map bool))]

/-- A call stack in full, with its old frames. -/
def CallStack.inspect (s : CallStack) : String :=
  record "Stack" [("frames", list (s.frames.toList.map fun a => Nat.repr a.toNat)),
    ("len", Nat.repr s.depth)]

/-- A pace in full. -/
def Pace.inspect (p : Pace) : String :=
  record "Pacing" [("instructions_per_frame", Nat.repr p.stepsPerFrame),
    ("frame_rate", Nat.repr p.framesPerSecond)]

/-! ## Errors -/

/-- A file error in full. -/
def FileError.inspect (e : FileError) : String :=
  match e.code? with
  | some code =>
      record "Os" [("code", Nat.repr code), ("kind", e.kind), ("message", quoted e.reason)]
  | none => record "Error" [("kind", e.kind), ("message", quoted e.reason)]

/-- The name of an error's cause. -/
def Error.name : Error → String
  | unimplemented _ => "UnimplementedInstruction"
  | stackUnderflow _ => "StackUnderflow"
  | stackOverflow .. => "StackOverflow"
  | invalidAddress _ => "InvalidAddress"
  | programTooLarge .. => "ProgramTooLarge"
  | invalidRegister _ => "InvalidRegister"
  | file _ => "IoError"

/-- An error in full. -/
def Error.inspect (e : Error) : String :=
  match e with
  | unimplemented word => record e.name [("word", Nat.repr word.toNat)]
  | stackUnderflow pc => record e.name [("pc", Nat.repr pc.toNat)]
  | stackOverflow pc depth =>
      record e.name [("pc", Nat.repr pc.toNat), ("depth", Nat.repr depth)]
  | invalidAddress address => record e.name [("addr", Nat.repr address)]
  | programTooLarge length limit =>
      record e.name [("len", Nat.repr length), ("max", Nat.repr limit)]
  | invalidRegister register => record e.name [("reg", Nat.repr register)]
  | file cause => e.name ++ "(" ++ cause.inspect ++ ")"

/-! ## The machine -/

/-- A machine; memory, random source and trace are left out. -/
def Machine.inspect {ρ : Type} (m : Machine ρ) : String :=
  openRecord "CPU"
    [("flags", m.switches.inspect), ("stack", m.stack.inspect), ("pc", Nat.repr m.pc.toNat),
     ("i", Nat.repr m.index.toNat), ("v", list (m.v.toList.map fun b => Nat.repr b.toNat)),
     ("delay", Nat.repr m.delay.toNat), ("sound", Nat.repr m.sound.toNat),
     ("cycle", Nat.repr m.cycle.toNat), ("screen", m.screen.inspect)]

/-- A machine and its pace. -/
def Emulator.inspect {ρ : Type} (e : Emulator ρ) : String :=
  record "Chip8" [("cpu", e.machine.inspect), ("pacing", e.pace.inspect)]

/-! ## Examples -/

example : (Instruction.draw 1 2 5).inspect = "draw \x7b y: 2, x: 1, n: 5 \x7d" := by decide
example : (Error.stackOverflow 514 16).inspect = "StackOverflow \x7b pc: 514, depth: 16 \x7d" := by
  decide

end Chip8
