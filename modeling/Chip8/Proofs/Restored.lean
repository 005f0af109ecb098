/-
  Values read back.

  A memory, a screen and a call stack are made new, read back from data, or come out of what is done to
  others.  New ones have the right size and nothing that is done to them changes it, and on values of the
  right size no access goes past an end.  What is left is reading, and reading does not ask for the size.
  1. **Where a value comes from** (`Obtainable`).  One relation for the three kinds — what is new, what is
     read, what is done — with the data that may be read as a parameter.
  2. **The crux** (`Obtainable.forall_iff`).  What new values have and changes keep, all values have if and
     only if all values that are read have it.
  3. **What a size is good for** (`Memory.Sound`, `Screen.Sound`, `CallStack.Sound`).  With the right size
     the accesses that rely on it do not crash.
  4. **What is read** has the size of the list it is read from, or the count that stands in the data.  A
     value that was written is read back as it was, whatever its size.
-/
import Chip8.Proofs.Screen
import Chip8.Saved.Values

namespace Chip8

/-! ## Where a value comes from -/

/-- The values that can be come by — the new one, what is read from data that is trusted, and what a change
makes of such a value. -/
inductive Obtainable {α : Type} (new : α) (read : Data → Option α) (Change : α → α → Prop)
    (trusted : Data → Prop) : α → Prop where
  | new : Obtainable new read Change trusted new
  | restored {d : Data} {a : α} :
      trusted d → read d = some a → Obtainable new read Change trusted a
  | changed {a b : α} :
      Obtainable new read Change trusted a → Change a b → Obtainable new read Change trusted b

/-- **What is new and what is changed takes care of itself.**  What the new value has and changes keep, all
have if all that is read has it. -/
theorem Obtainable.forall_iff {α : Type} {new : α} {read : Data → Option α} {Change : α → α → Prop}
    {trusted : Data → Prop} {P : α → Prop} (hnew : P new) (hchange : ∀ a b, P a → Change a b → P b) :
    (∀ a, Obtainable new read Change trusted a → P a)
      ↔ ∀ d a, trusted d → read d = some a → P a := by
  constructor
  · intro h d a htrusted hread
    exact h a (.restored htrusted hread)
  · intro h a ha
    induction ha with
    | new => exact hnew
    | restored htrusted hread => exact h _ _ htrusted hread
    | changed _ hab ih => exact hchange _ _ ih hab

/-! ## Lists of data -/

namespace Data

variable {α : Type} {read : Data → Option α}

/-- As many values are read from a list as it has items. -/
theorem length_of_listOf? {d : Data} {values : List α} (h : d.listOf? read = some values) :
    ∃ items, d = .list items ∧ values.length = items.length := by
  cases d with
  | list items =>
    refine ⟨items, rfl, ?_⟩
    replace h : items.mapM read = some values := h
    induction items generalizing values with
    | nil =>
      obtain rfl := Option.some.inj h
      rfl
    | cons item items ih =>
      rw [List.mapM_cons] at h
      obtain ⟨value, -, hrest⟩ := Option.bind_eq_some_iff.mp h
      obtain ⟨others, hothers, hend⟩ := Option.bind_eq_some_iff.mp hrest
      obtain rfl := Option.some.inj hend
      exact congrArg Nat.succ (ih hothers)
  | null | bool | natural | otherNumber | text | record => cases h

/-- A list of written values is read back. -/
theorem listOf?_map {write : α → Data} (h : ∀ a, read (write a) = some a) (values : List α) :
    (list (values.map write)).listOf? read = some values := by
  show (values.map write).mapM read = some values
  induction values with
  | nil => rfl
  | cons value values ih =>
    rw [List.map_cons, List.mapM_cons, h, ih]
    rfl

theorem naturalBelow?_natural {n bound : Nat} (h : n < bound) :
    (natural n).naturalBelow? bound = some n := if_pos h

theorem byte?_toNat (b : UInt8) : (natural b.toNat).byte? = some b := by
  rw [byte?, naturalBelow?_natural b.toNat_lt, Option.map_some, UInt8.ofNat_toNat]

theorem word?_toNat (w : UInt16) : (natural w.toNat).word? = some w := by
  rw [word?, naturalBelow?_natural w.toNat_lt, Option.map_some, UInt16.ofNat_toNat]

theorem eq_natural_of_naturalBelow? {d : Data} {n bound : Nat} (h : d.naturalBelow? bound = some n) :
    d = .natural n := by
  cases d with
  | natural k =>
    rw [naturalBelow?] at h
    split at h
    next =>
      obtain rfl := Option.some.inj h
      rfl
    next => cases h
  | null | bool | otherNumber | text | list | record => cases h

end Data

/-! ## Memories -/

namespace Memory

/-- What can be done to a memory. -/
inductive Change : Memory → Memory → Prop where
  | set {m n : Memory} {address : Nat} {value : UInt8} : m.set address value = .ok n → Change m n
  | fill {m n : Memory} {start stop : Nat} {value : UInt8} :
      m.fill start stop value = .ok n → Change m n
  | store {m n : Memory} {start : Nat} {block : List UInt8} :
      m.store start block = .ok n → Change m n
  | load {m n : Memory} {program : List UInt8} : m.load program = .ok n → Change m n

theorem length_change {m n : Memory} (h : Change m n) : n.length = m.length := by
  cases h with
  | set h => exact length_set h
  | @fill start stop value h =>
    unfold fill at h
    cases hcheck : m.check start stop with
    | error e =>
      rw [hcheck] at h
      cases h
    | ok =>
      rw [hcheck] at h
      obtain rfl := Except.ok.inj h
      exact length_splice _ _ _
  | store h =>
    obtain ⟨-, rfl⟩ := store_eq_ok_iff.mp h
    exact length_splice _ _ _
  | load h => exact length_load h

/-- A memory of full size, whose regions can be read, and a load of which does not crash. -/
structure Sound (m : Memory) : Prop where
  length : m.length = memorySize
  region : ∀ r : Region, ∃ bytes, m.region r = .ok bytes ∧ bytes.length = r.stop - r.start
  load : ∀ (program : List UInt8) (crash : Crash), m.load program ≠ .error (.crash crash)

theorem sound_iff {m : Memory} : m.Sound ↔ m.length = memorySize := by
  constructor
  · exact Sound.length
  · intro h
    have hsize : m.bytes.size = memorySize := h
    refine ⟨h, ?_, ?_⟩
    · intro r
      have hstop : r.stop ≤ memorySize := by cases r <;> decide
      refine ⟨_, if_pos (h ▸ hstop), ?_⟩
      rw [Array.length_toList, Array.size_extract, hsize, Nat.min_eq_left hstop]
    · intro program crash hcrash
      unfold Memory.load at hcrash
      rw [if_neg (show ¬ m.length < memorySize by omega)] at hcrash
      split at hcrash <;> cases hcrash

/-- The memory that is read has a byte for each item. -/
theorem length_ofSaved? {d : Data} {m : Memory} (h : ofSaved? d = some m) :
    ∃ items, d.field? "memory" = some (.list items) ∧ m.length = items.length := by
  obtain ⟨field, hfield, hrest⟩ := Option.bind_eq_some_iff.mp h
  obtain ⟨bytes, hbytes, hend⟩ := Option.bind_eq_some_iff.mp hrest
  obtain rfl := Option.some.inj hend
  obtain ⟨items, rfl, hlength⟩ := Data.length_of_listOf? hbytes
  exact ⟨items, hfield, hlength⟩

/-- A memory is read back as it was written, whatever its length. -/
theorem ofSaved?_saved (m : Memory) : ofSaved? m.saved = some m := by
  have hfield : m.saved.field? "memory"
      = some (.list (m.bytes.toList.map fun b => .natural b.toNat)) := rfl
  have hread := Data.listOf?_map Data.byte?_toNat m.bytes.toList
  simp only [ofSaved?, hfield, hread, Option.bind_eq_bind, Option.bind_some]
  rfl

/-- Memories are sound if the lists of bytes that are read have full length. -/
theorem forall_sound_iff {trusted : Data → Prop} :
    (∀ m, Obtainable .fresh ofSaved? Change trusted m → m.Sound)
      ↔ ∀ d m items, trusted d → ofSaved? d = some m →
        d.field? "memory" = some (.list items) → items.length = memorySize := by
  simp only [sound_iff]
  rw [Obtainable.forall_iff (P := fun m : Memory => m.length = memorySize) length_fresh
    fun m n hm h => (length_change h).trans hm]
  constructor
  · intro h d m items htrusted hread hitems
    obtain ⟨items', hitems', hlength⟩ := length_ofSaved? hread
    obtain rfl := Data.list.inj (Option.some.inj (hitems.symm.trans hitems'))
    exact hlength.symm.trans (h d m htrusted hread)
  · intro h d m htrusted hread
    obtain ⟨items, hitems, hlength⟩ := length_ofSaved? hread
    exact hlength.trans (h d m items htrusted hread hitems)

end Memory

/-! ## Screens -/

namespace Screen

/-- What can be done to a screen. -/
inductive Change : Screen → Screen → Prop where
  | set {s t : Screen} {x y : Nat} {lit : Bool} : s.set x y lit = .ok t → Change s t
  | clear {s : Screen} : Change s s.clear

theorem size_change {s t : Screen} (h : Change s t) : t.pixels.size = s.pixels.size := by
  cases h with
  | set h => exact size_set h
  | clear => exact size_clear s

/-- A screen of full size, every pixel of which can be read and written. -/
structure Sound (s : Screen) : Prop where
  size : s.pixels.size = width * height
  get : ∀ x < width, ∀ y < height, ∃ lit, s.get x y = .ok lit
  set : ∀ x < width, ∀ y < height, ∀ lit, ∃ t, s.set x y lit = .ok t

theorem sound_iff {s : Screen} : s.Sound ↔ s.pixels.size = width * height := by
  constructor
  · exact Sound.size
  · intro h
    have hplace : ∀ {x y : Nat}, x < width → y < height → y * width + x < s.pixels.size := by
      intro x y hx hy
      rw [h]
      exact place_lt hx hy
    refine ⟨h, ?_, ?_⟩
    · intro x hx y hy
      have hin := hplace hx hy
      refine ⟨s.pixels[y * width + x], ?_⟩
      simp only [Screen.get, place_onScreen hx hy, bind, Except.bind, Array.getElem?_eq_getElem hin]
    · intro x hx y hy lit
      refine ⟨⟨s.pixels.set (y * width + x) lit (hplace hx hy)⟩, ?_⟩
      simp only [Screen.set, place_onScreen hx hy, bind, Except.bind, dif_pos (hplace hx hy)]

/-- The screen that is read has a pixel for each item. -/
theorem size_ofSaved? {d : Data} {s : Screen} (h : ofSaved? d = some s) :
    ∃ items, d.field? "pixels" = some (.list items) ∧ s.pixels.size = items.length := by
  obtain ⟨field, hfield, hrest⟩ := Option.bind_eq_some_iff.mp h
  obtain ⟨pixels, hpixels, hend⟩ := Option.bind_eq_some_iff.mp hrest
  obtain rfl := Option.some.inj hend
  obtain ⟨items, rfl, hlength⟩ := Data.length_of_listOf? hpixels
  exact ⟨items, hfield, hlength⟩

/-- A screen is read back as it was written, whatever its number of pixels. -/
theorem ofSaved?_saved (s : Screen) : ofSaved? s.saved = some s := by
  have hfield : s.saved.field? "pixels" = some (.list (s.pixels.toList.map .bool)) := rfl
  have hwritten : ∀ lit, (Data.bool lit).bool? = some lit := fun _ => rfl
  have hread := Data.listOf?_map hwritten s.pixels.toList
  simp only [ofSaved?, hfield, hread, Option.bind_eq_bind, Option.bind_some]
  rfl

/-- Screens are sound if the lists of pixels that are read have full length. -/
theorem forall_sound_iff {trusted : Data → Prop} :
    (∀ s, Obtainable .blank ofSaved? Change trusted s → s.Sound)
      ↔ ∀ d s items, trusted d → ofSaved? d = some s →
        d.field? "pixels" = some (.list items) → items.length = width * height := by
  simp only [sound_iff]
  rw [Obtainable.forall_iff (P := fun s : Screen => s.pixels.size = width * height) size_blank
    fun s t hs h => (size_change h).trans hs]
  constructor
  · intro h d s items htrusted hread hitems
    obtain ⟨items', hitems', hsize⟩ := size_ofSaved? hread
    obtain rfl := Data.list.inj (Option.some.inj (hitems.symm.trans hitems'))
    exact hsize.symm.trans (h d s htrusted hread)
  · intro h d s htrusted hread
    obtain ⟨items, hitems, hsize⟩ := size_ofSaved? hread
    exact hsize.trans (h d s items htrusted hread hitems)

end Screen

/-! ## Call stacks -/

namespace CallStack

/-- What can be done to a call stack.  A pop that crashes leaves one, too. -/
inductive Change : CallStack → CallStack → Prop where
  | push {s t : CallStack} {address : UInt16} : s.push address = some t → Change s t
  | pop {s : CallStack} : Change s s.pop.2
  | clear {s : CallStack} : Change s s.clear

theorem depth_change {s t : CallStack} (hs : s.depth ≤ stackDepth) (h : Change s t) :
    t.depth ≤ stackDepth := by
  cases h with
  | push h =>
    rw [push] at h
    split at h
    next hroom =>
      obtain rfl := Option.some.inj h
      exact hroom
    next => cases h
  | pop =>
    rw [pop_eq hs]
    split
    next => exact Nat.le_trans (Nat.sub_le _ _) hs
    next => exact hs
  | clear => exact Nat.zero_le _

/-- A call stack with no more live frames than it has frames, which can be popped, seen, compared and
hashed. -/
structure Sound (s : CallStack) : Prop where
  depth : s.depth ≤ stackDepth
  pop : ∃ address?, s.pop.1 = .ok address?
  live : s.live? = .ok s.live
  same : ∀ t : CallStack, t.depth ≤ stackDepth → s.same? t = .ok (s.live == t.live)
  hash : s.hashed?
    = .ok [lowFirst 8 s.live.length, s.live.flatMap fun address => lowFirst 2 address.toNat]

theorem sound_iff {s : CallStack} : s.Sound ↔ s.depth ≤ stackDepth := by
  constructor
  · exact Sound.depth
  · intro h
    refine ⟨h, ?_, live?_eq h, fun t ht => same?_eq h ht, hashed?_eq h⟩
    rw [pop_eq h]
    split
    next => exact ⟨_, rfl⟩
    next => exact ⟨_, rfl⟩

/-- The call stack that is read has the count that stands in the data. -/
theorem depth_ofSaved? {d : Data} {s : CallStack} (h : ofSaved? d = some s) :
    ∃ frames, d.twoFields? "frames" "len" = some (frames, .natural s.depth) := by
  obtain ⟨⟨frames, len⟩, hfields, hrest⟩ := Option.bind_eq_some_iff.mp h
  obtain ⟨addresses, -, hrest⟩ := Option.bind_eq_some_iff.mp hrest
  obtain ⟨depth, hdepth, hend⟩ := Option.bind_eq_some_iff.mp hrest
  obtain rfl := Data.eq_natural_of_naturalBelow? hdepth
  split at hend
  next =>
    obtain rfl := Option.some.inj hend
    exact ⟨frames, hfields⟩
  next => cases hend

/-- A call stack is read back as it was written, whatever its count of live frames. -/
theorem ofSaved?_saved {s : CallStack} (h : s.depth < UInt64.size) : ofSaved? s.saved = some s := by
  have hfields : s.saved.twoFields? "frames" "len"
      = some (.list (s.frames.toList.map fun a => .natural a.toNat), .natural s.depth) := rfl
  have hread := Data.listOf?_map Data.word?_toNat s.frames.toList
  have hdepth : (Data.natural s.depth).naturalBelow? UInt64.size = some s.depth :=
    Data.naturalBelow?_natural h
  have hsize : s.frames.toList.toArray.size = stackDepth := by simp
  simp only [ofSaved?, hfields, hread, hdepth, Option.bind_eq_bind, Option.bind_some, dif_pos hsize]
  rfl

/-- Call stacks are sound if the counts that are read are not above sixteen. -/
theorem forall_sound_iff {trusted : Data → Prop} :
    (∀ s, Obtainable .empty ofSaved? Change trusted s → s.Sound)
      ↔ ∀ d s frames count, trusted d → ofSaved? d = some s →
        d.twoFields? "frames" "len" = some (frames, .natural count) → count ≤ stackDepth := by
  simp only [sound_iff]
  rw [Obtainable.forall_iff (P := fun s : CallStack => s.depth ≤ stackDepth) (Nat.zero_le _)
    fun s t hs h => depth_change hs h]
  constructor
  · intro h d s frames count htrusted hread hfields
    obtain ⟨frames', hfields'⟩ := depth_ofSaved? hread
    have hpair := Prod.mk.inj (Option.some.inj (hfields.symm.trans hfields'))
    rw [Data.natural.inj hpair.2]
    exact h d s htrusted hread
  · intro h d s htrusted hread
    obtain ⟨frames, hfields⟩ := depth_ofSaved? hread
    exact h d s frames s.depth htrusted hread hfields

end CallStack

/-! ## Sizes hold as far as what is read has them -/

/-- **A value is sound unless one was read that is not.**  Whatever data is trusted —
    * all memories that can be come by are of full size, give their regions and load without a crash, if
      and only if the lists of bytes in the data that reads as a memory have full length;
    * so it is with screens, their pixels, and the reading and writing of these on the screen;
    * and with call stacks, the counts in the data, and popping, seeing, comparing and hashing.
Reading asks for none of this: a memory and a screen that were written are read back whatever their
sizes are, and a call stack whatever its count, as long as that has 64 bits. -/
theorem sound_as_what_is_read (trusted : Data → Prop) :
    ((∀ m, Obtainable .fresh Memory.ofSaved? Memory.Change trusted m → m.Sound)
      ↔ ∀ d m items, trusted d → Memory.ofSaved? d = some m →
        d.field? "memory" = some (.list items) → items.length = memorySize)
    ∧ ((∀ s, Obtainable .blank Screen.ofSaved? Screen.Change trusted s → s.Sound)
      ↔ ∀ d s items, trusted d → Screen.ofSaved? d = some s →
        d.field? "pixels" = some (.list items) → items.length = Screen.width * Screen.height)
    ∧ ((∀ s, Obtainable .empty CallStack.ofSaved? CallStack.Change trusted s → s.Sound)
      ↔ ∀ d s frames count, trusted d → CallStack.ofSaved? d = some s →
        d.twoFields? "frames" "len" = some (frames, .natural count) → count ≤ stackDepth)
    ∧ (∀ m : Memory, Memory.ofSaved? m.saved = some m)
    ∧ (∀ s : Screen, Screen.ofSaved? s.saved = some s)
    ∧ ∀ s : CallStack, s.depth < UInt64.size → CallStack.ofSaved? s.saved = some s := by
  exact ⟨Memory.forall_sound_iff, Screen.forall_sound_iff, CallStack.forall_sound_iff,
    Memory.ofSaved?_saved, Screen.ofSaved?_saved, fun _ => CallStack.ofSaved?_saved⟩

/-- Not all that can be read is sound.  An empty list of bytes is read as a memory that has no font and takes
no program, an empty list of pixels as a screen that has no pixel, and a call stack may say that
seventeen of its sixteen frames are live. -/
theorem read_without_size :
    (∃ m, Memory.ofSaved? (.record [("memory", .list [])]) = some m ∧ m.length = 0
      ∧ m.region .charset = .error .index ∧ m.load [] = .error (.crash .index))
    ∧ (∃ s, Screen.ofSaved? (.record [("pixels", .list [])]) = some s ∧ s.pixels.size = 0
      ∧ s.get 0 0 = .error .index ∧ s.set 0 0 true = .error .index)
    ∧ ∃ s, CallStack.ofSaved? (.record [("frames", .list (List.replicate 16 (.natural 0))),
        ("len", .natural 17)]) = some s ∧ s.depth = 17 ∧ s.pop.1 = .error .index
      ∧ s.live? = .error .index ∧ s.same? s = .error .index ∧ s.hashed? = .error .index := by
  refine ⟨⟨⟨#[]⟩, rfl, rfl, rfl, rfl⟩, ⟨⟨#[]⟩, rfl, rfl, rfl, rfl⟩, ?_⟩
  let s : CallStack := ⟨Vector.replicate 16 0, 17⟩
  exact ⟨s, CallStack.ofSaved?_saved (s := s) (by decide), rfl, rfl, rfl, rfl, rfl⟩

end Chip8
