/-
  Memory.

  Memory is a flat row of bytes; a fresh one has 4096 of them, with the hexadecimal font at 0x050 and
  room for the program from 0x200 to the end.  A memory read in from outside may have any length, so
  every access is checked:
    * `get`, `set`, `word`, `slice`, `window`, `fill` and `store` fail with the first address of the
      access that lies outside, and then change nothing;
    * `region` and `load` rely on the full size and crash without it.

  Nothing changes the length: a write puts its bytes over old ones, one after the other.
-/
import Chip8.Fault
import Chip8.Word

namespace Chip8

/-! ## The layout of memory -/

/-- The number of addressable bytes. -/
def memorySize : Nat := 0x1000

/-- Where the font stands. -/
def fontStart : Nat := 0x050

/-- Where programs are loaded and execution begins. -/
def programStart : Nat := 0x200

/-- The number of bytes of a glyph. -/
def glyphSize : Nat := 5

/-- The sixteen glyphs, four pixels wide and five high, digits `0` to `F`. -/
def font : List UInt8 :=
  [0xf0, 0x90, 0x90, 0x90, 0xf0,
   0x20, 0x60, 0x20, 0x20, 0x70,
   0xf0, 0x10, 0xf0, 0x80, 0xf0,
   0xf0, 0x10, 0xf0, 0x10, 0xf0,
   0x90, 0x90, 0xf0, 0x10, 0x10,
   0xf0, 0x80, 0xf0, 0x10, 0xf0,
   0xf0, 0x80, 0xf0, 0x90, 0xf0,
   0xf0, 0x10, 0x20, 0x40, 0x40,
   0xf0, 0x90, 0xf0, 0x90, 0xf0,
   0xf0, 0x90, 0xf0, 0x10, 0xf0,
   0xf0, 0x90, 0xf0, 0x90, 0x90,
   0xe0, 0x90, 0xe0, 0x90, 0xe0,
   0xf0, 0x80, 0x80, 0x80, 0xf0,
   0xe0, 0x90, 0x90, 0x90, 0xe0,
   0xf0, 0x80, 0xf0, 0x80, 0xf0,
   0xf0, 0x80, 0xf0, 0x80, 0x80]

/-- A named part of memory. -/
inductive Region where
  | charset
  | program
deriving DecidableEq, Repr

namespace Region

/-- The first address of a region. -/
def start : Region → Nat
  | charset => fontStart
  | program => programStart

/-- The first address after a region. -/
def stop : Region → Nat
  | charset => fontStart + font.length
  | program => memorySize

/-- The name of a region. -/
def name : Region → String
  | charset => "Charset"
  | program => "Program"

/-- The order of regions is the order of their names — the charset comes first. -/
def compare : Region → Region → Ordering
  | charset, program => .lt
  | program, charset => .gt
  | charset, charset | program, program => .eq

/-- The number of bytes of program memory. -/
def programLength : Nat := program.stop - program.start

end Region

/-! ## Memory and its accesses -/

/-- A row of bytes. -/
structure Memory where
  bytes : Array UInt8
deriving DecidableEq, Repr

namespace Memory

/-- The memory a machine starts with — all zero but the font. -/
def fresh : Memory :=
  ⟨Array.replicate fontStart 0 ++ font.toArray
    ++ Array.replicate (memorySize - fontStart - font.length) 0⟩

instance : Inhabited Memory := ⟨fresh⟩

/-- The number of bytes. -/
def length (m : Memory) : Nat := m.bytes.size

/-- Is there no byte at all? -/
def isEmpty (m : Memory) : Bool := m.bytes.isEmpty

/-- The byte at an address. -/
def get (m : Memory) (address : Nat) : Except Error UInt8 :=
  match m.bytes[address]? with
  | some b => .ok b
  | none => .error (.invalidAddress address)

/-- Put a byte at an address. -/
def set (m : Memory) (address : Nat) (value : UInt8) : Except Error Memory :=
  if h : address < m.bytes.size then .ok ⟨m.bytes.set address value h⟩
  else .error (.invalidAddress address)

/-- The word whose high byte is at an address. -/
def word (m : Memory) (address : Nat) : Except Error UInt16 := do
  let high ← m.get address
  let low ← m.get (address + 1)
  return Word.ofBytes high low

/-- What an access to `start..stop` is refused with, if it is — the first address outside. -/
def check (m : Memory) (start stop : Nat) : Except Error Unit :=
  if start ≤ stop ∧ stop ≤ m.length then .ok ()
  else .error (.invalidAddress (max start m.length))

/-- The bytes of `start..stop`. -/
def slice (m : Memory) (start stop : Nat) : Except Error (List UInt8) := do
  m.check start stop
  return (m.bytes.extract start stop).toList

/-- Put a block of bytes over old ones from `start` on; what would lie past the end is dropped. -/
def overwrite : Array UInt8 → Nat → List UInt8 → Array UInt8
  | bytes, _, [] => bytes
  | bytes, start, b :: block => overwrite (bytes.setIfInBounds start b) (start + 1) block

/-- A block of bytes put over old ones, in a memory that has room for it. -/
def splice (m : Memory) (start : Nat) (block : List UInt8) : Memory :=
  ⟨overwrite m.bytes start block⟩

/-- A stretch of a memory that may be written to — its bytes, and the memory with others in their
place. -/
structure Window (count : Nat) where
  bytes : Vector UInt8 count
  replaced : Vector UInt8 count → Memory

/-- The stretch `start..stop`, to be written to. -/
def window (m : Memory) (start stop : Nat) : Except Error (Window (stop - start)) :=
  if h : start ≤ stop ∧ stop ≤ m.length then
    .ok ⟨⟨m.bytes.extract start stop, by
        rw [Array.size_extract, Nat.min_eq_left (show stop ≤ m.bytes.size from h.2)]⟩,
      fun bytes => m.splice start bytes.toList⟩
  else .error (.invalidAddress (max start m.length))

/-- Put one byte into every place of `start..stop`. -/
def fill (m : Memory) (start stop : Nat) (value : UInt8) : Except Error Memory := do
  m.check start stop
  return m.splice start (List.replicate (stop - start) value)

/-- Put a block of bytes at `start`. -/
def store (m : Memory) (start : Nat) (block : List UInt8) : Except Error Memory := do
  m.check start (start + block.length)
  return m.splice start block

/-- The bytes of a region. -/
def region (m : Memory) (r : Region) : Except Crash (List UInt8) :=
  if r.stop ≤ m.length then .ok (m.bytes.extract r.start r.stop).toList else .error .index

/-- Put a program at the start of program memory and zeros into the rest of it. -/
def load (m : Memory) (program : List UInt8) : Except Fault Memory :=
  if Region.programLength < program.length then
    .error (.error (.programTooLarge program.length Region.programLength))
  else if m.length < memorySize then .error (.crash .index)
  else .ok (m.splice programStart
    (program ++ List.replicate (Region.programLength - program.length) 0))

/-! ## No access changes the length -/

/-- A fresh memory has 4096 bytes. -/
@[simp] theorem length_fresh : fresh.length = memorySize := by
  simp [fresh, length, memorySize, fontStart, font]

theorem size_overwrite (bytes : Array UInt8) (start : Nat) (block : List UInt8) :
    (overwrite bytes start block).size = bytes.size := by
  induction block generalizing bytes start with
  | nil => rfl
  | cons b block ih => rw [overwrite, ih, Array.size_setIfInBounds]

/-- A block goes over what is there, so memory does not get longer. -/
@[simp] theorem length_splice (m : Memory) (start : Nat) (block : List UInt8) :
    (m.splice start block).length = m.length := size_overwrite _ _ _

theorem length_set {m n : Memory} {address : Nat} {value : UInt8}
    (h : m.set address value = .ok n) : n.length = m.length := by
  rw [set] at h
  split at h
  · obtain rfl := Except.ok.inj h
    simp [length]
  · cases h

/-- A range is accepted if it is in order and ends inside memory. -/
theorem check_eq_ok_iff {m : Memory} {start stop : Nat} :
    m.check start stop = .ok () ↔ start ≤ stop ∧ stop ≤ m.length := by
  rw [check]
  split
  · simpa
  · rename_i h
    exact ⟨fun e => (by cases e), fun e => absurd e h⟩

/-- What an access to `count` bytes is told, if it begins at `start`. -/
theorem check_add (m : Memory) (start count : Nat) :
    m.check start (start + count) = if start + count ≤ m.length then .ok ()
      else .error (.invalidAddress (max start m.length)) := by
  simp only [check, Nat.le_add_right, true_and]

/-- A slice of a given length is read if it ends inside memory; else the first address outside is reported. -/
theorem slice_add (m : Memory) (start count : Nat) :
    m.slice start (start + count) = if start + count ≤ m.length
      then .ok (m.bytes.extract start (start + count)).toList
      else .error (.invalidAddress (max start m.length)) := by
  rw [slice, check_add]
  split <;> rfl

/-- As many bytes are read as were asked for. -/
theorem length_of_slice_eq_ok {m : Memory} {start count : Nat} {bytes : List UInt8}
    (h : m.slice start (start + count) = .ok bytes) : bytes.length = count := by
  rw [slice_add] at h
  split at h
  · rename_i hle
    obtain rfl := Except.ok.inj h
    have hsize : start + count ≤ m.bytes.size := hle
    rw [Array.length_toList, Array.size_extract]
    omega
  · cases h

/-- A block is stored if it ends inside memory. -/
theorem store_eq_ok_iff {m n : Memory} {start : Nat} {block : List UInt8} :
    m.store start block = .ok n ↔ start + block.length ≤ m.length ∧ m.splice start block = n := by
  simp only [store, check, Nat.le_add_right, true_and]
  split
  · rename_i h
    simp [bind, Except.bind, pure, Except.pure, h]
  · rename_i h
    simp [bind, Except.bind, h]

/-- A program is loaded if it fits into memory of full size. -/
theorem load_eq_ok_iff {m n : Memory} {program : List UInt8} : m.load program = .ok n
    ↔ (program.length ≤ Region.programLength ∧ memorySize ≤ m.length) ∧ m.splice programStart
      (program ++ List.replicate (Region.programLength - program.length) 0) = n := by
  rw [load]
  by_cases hfits : program.length ≤ Region.programLength
  · rw [if_neg (Nat.not_lt.mpr hfits)]
    by_cases hfull : memorySize ≤ m.length
    · rw [if_neg (Nat.not_lt.mpr hfull), Except.ok.injEq]
      exact ⟨fun h => ⟨⟨hfits, hfull⟩, h⟩, fun h => h.2⟩
    · rw [if_pos (Nat.lt_of_not_le hfull)]
      exact ⟨nofun, fun h => absurd h.1.2 hfull⟩
  · rw [if_pos (Nat.lt_of_not_le hfits)]
    exact ⟨nofun, fun h => absurd h.1.1 hfits⟩

theorem length_load {m n : Memory} {program : List UInt8} (h : m.load program = .ok n) :
    n.length = m.length := by
  obtain ⟨-, rfl⟩ := load_eq_ok_iff.mp h
  exact length_splice _ _ _

/-! ## What a write leaves to be read -/

/-- Byte by byte — in the block what the block has, outside of it what was there. -/
theorem getElem?_overwrite (bytes : Array UInt8) (start : Nat) (block : List UInt8) (k : Nat) :
    (overwrite bytes start block)[k]?
      = if start ≤ k ∧ k < start + block.length ∧ k < bytes.size then block[k - start]?
        else bytes[k]? := by
  induction block generalizing bytes start with
  | nil =>
      rw [overwrite, if_neg]
      simp only [List.length_nil]
      omega
  | cons b block ih =>
      rw [overwrite, ih, Array.size_setIfInBounds, Array.getElem?_setIfInBounds, List.length_cons]
      rcases Nat.lt_trichotomy k start with h | h | h
      · rw [if_neg (by omega), if_neg (by omega), if_neg (by omega)]
      · subst h
        rw [if_neg (by omega), if_pos rfl]
        by_cases hk : k < bytes.size
        · rw [if_pos hk, if_pos (by omega), Nat.sub_self, List.getElem?_cons_zero]
        · rw [if_neg hk, if_neg (by omega), Array.getElem?_eq_none (by omega)]
      · rw [if_neg (show ¬ start = k by omega), show k - start = k - (start + 1) + 1 by omega,
          List.getElem?_cons_succ]
        by_cases hk : k < start + 1 + block.length ∧ k < bytes.size
        · rw [if_pos (by omega), if_pos (by omega)]
        · rw [if_neg (by omega), if_neg (by omega)]

theorem getElem?_splice (m : Memory) (start : Nat) (block : List UInt8) (k : Nat) :
    (m.splice start block).bytes[k]? = if start ≤ k ∧ k < start + block.length ∧ k < m.length
      then block[k - start]? else m.bytes[k]? :=
  getElem?_overwrite m.bytes start block k

/-- A load leaves the program, zeros behind it, and the rest of memory as it was. -/
theorem getElem?_load {m n : Memory} {program : List UInt8} (h : m.load program = .ok n) (k : Nat) :
    n.bytes[k]? = if programStart ≤ k ∧ k < memorySize then some (program[k - programStart]?.getD 0)
      else m.bytes[k]? := by
  have hroom : programStart + Region.programLength = memorySize := rfl
  obtain ⟨⟨hfits, hfull⟩, rfl⟩ := load_eq_ok_iff.mp h
  rw [getElem?_splice, List.length_append, List.length_replicate]
  by_cases hk : programStart ≤ k ∧ k < memorySize
  · rw [if_pos (by omega), if_pos hk]
    by_cases hin : k - programStart < program.length
    · rw [List.getElem?_append_left hin, List.getElem?_eq_getElem hin]
      rfl
    · rw [List.getElem?_append_right (by omega), List.getElem?_replicate, if_pos (by omega),
        List.getElem?_eq_none (by omega)]
      rfl
  · rw [if_neg (by omega), if_neg hk]

/-- A load leaves the same in memories that agree outside program memory. -/
theorem load_congr {m n : Memory} (hlength : m.length = n.length)
    (h : ∀ a, ¬ (programStart ≤ a ∧ a < memorySize) → m.bytes[a]? = n.bytes[a]?)
    (program : List UInt8) : m.load program = n.load program := by
  by_cases hloads : program.length ≤ Region.programLength ∧ memorySize ≤ m.length
  · have hload := load_eq_ok_iff.mpr ⟨hloads, rfl⟩
    have hload' := load_eq_ok_iff.mpr ⟨⟨hloads.1, hlength ▸ hloads.2⟩, rfl⟩
    rw [hload, hload']
    refine congrArg (fun bytes => Except.ok (Memory.mk bytes)) (Array.ext_getElem? fun k => ?_)
    refine (getElem?_load hload k).trans (Eq.trans ?_ (getElem?_load hload' k).symm)
    split
    · rfl
    · exact h k ‹_›
  · rw [load, load, hlength]
    by_cases hfits : program.length ≤ Region.programLength
    · have hshort : n.length < memorySize := Nat.lt_of_not_le fun hfull => hloads ⟨hfits, hlength ▸ hfull⟩
      rw [if_neg (Nat.not_lt.mpr hfits), if_pos hshort, if_neg (Nat.not_lt.mpr hfits), if_pos hshort]
    · rw [if_pos (Nat.lt_of_not_le hfits), if_pos (Nat.lt_of_not_le hfits)]

/-- A block put over a longer one leaves the rest of it. -/
theorem splice_splice (m : Memory) (start : Nat) {old new : List UInt8}
    (h : new.length ≤ old.length) :
    (m.splice start old).splice start new = m.splice start (new ++ old.drop new.length) := by
  refine congrArg Memory.mk (Array.ext_getElem? fun k => ?_)
  show ((m.splice start old).splice start new).bytes[k]? = (m.splice start _).bytes[k]?
  rw [getElem?_splice, getElem?_splice, getElem?_splice, length_splice, List.length_append,
    List.length_drop]
  by_cases hnew : start ≤ k ∧ k < start + new.length ∧ k < m.length
  · rw [if_pos hnew, if_pos (by omega), List.getElem?_append_left (by omega)]
  · rw [if_neg hnew]
    by_cases hold : start ≤ k ∧ k < start + old.length ∧ k < m.length
    · rw [if_pos hold, if_pos (by omega), List.getElem?_append_right (by omega),
        List.getElem?_drop, show new.length + (k - start - new.length) = k - start by omega]
    · rw [if_neg hold, if_neg (by omega)]

/-- A block that fits is read back as it was written. -/
theorem extract_splice (m : Memory) {start : Nat} {block : List UInt8}
    (h : start + block.length ≤ m.length) :
    ((m.splice start block).bytes.extract start (start + block.length)).toList = block := by
  have hsize : start + block.length ≤ (m.splice start block).bytes.size := by
    show _ ≤ (m.splice start block).length
    rwa [length_splice]
  refine List.ext_getElem? fun k => ?_
  rw [Array.getElem?_toList, Array.getElem?_extract, Nat.min_eq_left hsize]
  by_cases hk : k < block.length
  · rw [if_pos (by omega), getElem?_splice, if_pos (by omega), Nat.add_sub_cancel_left]
  · rw [if_neg (by omega), List.getElem?_eq_none (by omega)]

end Memory

/-! ## Examples -/

example : Region.programLength = 0xe00 ∧ Region.charset.stop = 0xa0 := by decide
example : Memory.get ⟨#[1, 2]⟩ 2 = .error (.invalidAddress 2) := rfl
example : Memory.slice ⟨#[1, 2]⟩ 1 3 = .error (.invalidAddress 2) := rfl
example : Memory.store ⟨#[1, 2, 3, 4]⟩ 1 [8, 9] = .ok ⟨#[1, 8, 9, 4]⟩ := rfl

end Chip8
