/-
  The call stack.

  Sixteen frames and a count of how many are live.  Popping and clearing only lower the count, so old
  frames stay behind above it; they are never seen again, because a push overwrites the next one.
    * `live` is the list that counts — two stacks are the same if their live frames are, and a hash is
      taken of nothing else;
    * a stack read in from outside may have a count above sixteen.  It takes no push, and what looks
      at its live frames crashes.
-/
import Chip8.Fault

namespace Chip8

/-- The number of nested calls there is room for. -/
def stackDepth : Nat := 16

/-- Frames and the number of live ones. -/
structure CallStack where
  frames : Vector UInt16 stackDepth
  depth : Nat
deriving DecidableEq, Repr

namespace CallStack

/-- No frames. -/
def empty : CallStack := ⟨Vector.replicate stackDepth 0, 0⟩

instance : Inhabited CallStack := ⟨empty⟩

/-- Is nothing on the stack? -/
def isEmpty (s : CallStack) : Bool := s.depth == 0

/-- The live return addresses, oldest first. -/
def live (s : CallStack) : List UInt16 := s.frames.toList.take s.depth

/-- The live return addresses, for a stack whose count may be out of range. -/
def live? (s : CallStack) : Except Crash (List UInt16) :=
  if s.depth ≤ stackDepth then .ok s.live else .error .index

/-- Put an address on top — `none` if the stack is full. -/
def push (s : CallStack) (address : UInt16) : Option CallStack :=
  if h : s.depth < stackDepth then some ⟨s.frames.set s.depth address h, s.depth + 1⟩ else none

/-- Take the newest address off, `none` if the stack is empty, with the stack that is left.  The
count is lowered before the frame is looked at. -/
def pop (s : CallStack) : Except Crash (Option UInt16) × CallStack :=
  match s.depth with
  | 0 => (.ok none, s)
  | depth + 1 =>
      if h : depth < stackDepth then (.ok (some s.frames[depth]), ⟨s.frames, depth⟩)
      else (.error .index, ⟨s.frames, depth⟩)

/-- Drop every frame. -/
def clear (s : CallStack) : CallStack := ⟨s.frames, 0⟩

/-- Do two stacks hold the same live frames? -/
def same? (s t : CallStack) : Except Crash Bool := do
  let a ← s.live?
  let b ← t.live?
  return a == b

/-- A number as so many bytes, the low one first. -/
def lowFirst : Nat → Nat → List UInt8
  | 0, _ => []
  | width + 1, n => UInt8.ofNat n :: lowFirst width (n / 256)

/-- The blocks of bytes that a hash is taken of — the number of live frames, and then the frames. -/
def hashed? (s : CallStack) : Except Crash (List (List UInt8)) := do
  let live ← s.live?
  return [lowFirst 8 live.length, live.flatMap fun address => lowFirst 2 address.toNat]

/-! ## Stacks whose count is in range -/

/-- The live frames are seen without a crash, and so they are compared and hashed. -/
theorem live?_eq {s : CallStack} (h : s.depth ≤ stackDepth) : s.live? = .ok s.live := if_pos h

theorem same?_eq {s t : CallStack} (hs : s.depth ≤ stackDepth) (ht : t.depth ≤ stackDepth) :
    s.same? t = .ok (s.live == t.live) := by
  rw [same?, live?_eq hs, live?_eq ht]
  rfl

theorem hashed?_eq {s : CallStack} (h : s.depth ≤ stackDepth) : s.hashed?
    = .ok [lowFirst 8 s.live.length, s.live.flatMap fun address => lowFirst 2 address.toNat] := by
  rw [hashed?, live?_eq h]
  rfl

/-! ## The live frames as a list -/

theorem live_empty : empty.live = [] := rfl

theorem live_clear (s : CallStack) : s.clear.live = [] := rfl

/-- The count is the length of the list, as long as it is in range. -/
theorem length_live (s : CallStack) : s.live.length = min s.depth stackDepth := by
  rw [live, List.length_take, Vector.length_toList]

/-- A stack that holds what it can hold is popped without a crash. -/
theorem pop_eq {s : CallStack} (h : s.depth ≤ stackDepth) :
    s.pop = if hd : 0 < s.depth then (.ok (some s.frames[s.depth - 1]), ⟨s.frames, s.depth - 1⟩)
      else (.ok none, s) := by
  obtain ⟨frames, depth⟩ := s
  rcases depth with _ | depth
  · rfl
  · have hd : depth < stackDepth := h
    simp only [pop, dif_pos hd, Nat.zero_lt_succ, dif_pos, Nat.add_sub_cancel]

/-- A push is refused by a full stack, and by one whose count is out of range. -/
theorem push_eq_none_iff {s : CallStack} {address : UInt16} :
    s.push address = none ↔ stackDepth ≤ s.depth := by
  rw [push]
  split <;> simp <;> omega

/-- A push makes the stack one deeper. -/
theorem depth_push {s t : CallStack} {address : UInt16} (h : s.push address = some t) :
    t.depth = s.depth + 1 := by
  unfold push at h
  split at h
  · obtain rfl := Option.some.inj h
    rfl
  · cases h

/-- A pop that gives an address makes it one less deep. -/
theorem depth_pop {s t : CallStack} {address : UInt16} (h : s.pop = (.ok (some address), t)) :
    s.depth = t.depth + 1 := by
  obtain ⟨frames, depth⟩ := s
  cases depth with
  | zero => cases h
  | succ depth =>
    rw [pop] at h
    dsimp only at h
    split at h <;> cases h
    rfl

/-- A push appends. -/
theorem live_push {s t : CallStack} {address : UInt16} (h : s.push address = some t) :
    t.live = s.live ++ [address] := by
  rw [push] at h
  split at h
  · rename_i hd
    obtain rfl := Option.some.inj h
    show List.take (s.depth + 1) (s.frames.set s.depth address hd).toList = _
    rw [List.take_add_one, Vector.toList_set]
    simp [live, List.take_set_of_le, hd]
  · cases h

/-- A pop takes the last element off. -/
theorem live_pop {s t : CallStack} {address : UInt16} (h : s.pop = (.ok (some address), t)) :
    s.live = t.live ++ [address] := by
  obtain ⟨frames, depth⟩ := s
  rcases depth with _ | depth
  · cases h
  · rw [pop] at h
    dsimp only at h
    split at h
    · rename_i hd
      obtain ⟨rfl, rfl⟩ : frames[depth] = address ∧ (⟨frames, depth⟩ : CallStack) = t := by
        simpa using h
      simp [live, List.take_add_one, hd]
    · cases h

end CallStack

/-! ## Examples -/

example : (CallStack.empty.push 0x202).map CallStack.live = some [0x202] := by decide
example : CallStack.live? ⟨CallStack.empty.frames, 17⟩ = .error .index := rfl
example : CallStack.hashed? ⟨CallStack.empty.frames.set 0 0x202, 1⟩
    = .ok [[1, 0, 0, 0, 0, 0, 0, 0], [2, 2]] := rfl

end Chip8
