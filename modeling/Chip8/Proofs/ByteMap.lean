/-
  A memory is a map from addresses to bytes.

  There are four ways to read a memory — a byte, a word, a slice, and a window, which can also be written
  to — and two ways to write to it, at an address and through a window.  Each of them checks its bounds for
  itself and names a first address outside in its own way.  They agree, whatever the length of the memory is
  and whatever was written before.
  1. **One write** (`write_fits`, `write_misfits`).  A write that fits puts its values into their places and
     leaves the others; one that does not fit changes nothing and names the first address outside.  A
     program's fills and stores are such writes (`fill_eq_write`, `store_eq_write`).
  2. **Many writes** (`byte_after`).  An address holds the last value that a write that fitted put there.
  3. **Reading** (`slice_of_le`, `window_of_le`, `word_as_slice`).  A slice and a window show the bytes of
     their stretch, and a word is a slice of two bytes, down to the address it names when it is refused.
-/
import Chip8.Proofs.LastWrite
import Chip8.Proofs.Run

namespace Chip8.Memory

/-! ## One write -/

/-- One thing to write. -/
inductive Write where
  /-- A value at an address. -/
  | set (address : Nat) (value : UInt8)
  /-- Values for some of the places of the stretch `start..stop`, the places counted from zero. -/
  | window (start stop : Nat) (values : Nat → Option UInt8)

namespace Write

/-- Is there room for it in a memory of this length? -/
def fits (length : Nat) : Write → Bool
  | set address _ => address < length
  | window start stop _ => start ≤ stop && stop ≤ length

/-- The first address of it that lies outside such a memory, if it does not fit. -/
def firstOutside (length : Nat) : Write → Nat
  | set address _ => address
  | window start _ _ => max start length

/-- The value it has for an address, if it has one. -/
def at? (address : Nat) : Write → Option UInt8
  | set a value => if a = address then some value else none
  | window start stop values =>
      if start ≤ address ∧ address < stop then values (address - start) else none

end Write

/-- The memory with values in some of the places of a window.  The others keep theirs. -/
def Window.put {count : Nat} (w : Window count) (values : Nat → Option UInt8) : Memory :=
  w.replaced (Vector.ofFn fun k : Fin count => (values k).getD w.bytes[k])

/-- Write to a memory. -/
def write (m : Memory) : Write → Except Error Memory
  | .set address value => m.set address value
  | .window start stop values => do
      let w ← m.window start stop
      return w.put values

/-- The memory after a write, whether that went well or not. -/
def attempt (m : Memory) (w : Write) : Memory :=
  match m.write w with
  | .ok n => n
  | .error _ => m

/-- The memory after many writes. -/
def after (m : Memory) (writes : List Write) : Memory := writes.foldl attempt m

variable {m : Memory} {start stop address : Nat}

/-- A window inside memory shows its stretch, and what is put into it stands there. -/
theorem window_of_le (h : start ≤ stop ∧ stop ≤ m.length) : ∃ w, m.window start stop = .ok w
    ∧ w.bytes.toList = (m.bytes.extract start stop).toList
    ∧ ∀ bytes, w.replaced bytes = m.splice start bytes.toList :=
  ⟨_, dif_pos h, rfl, fun _ => rfl⟩

/-- A window that is out of order or ends behind memory is refused, with the first address outside. -/
theorem window_of_not_le (h : ¬ (start ≤ stop ∧ stop ≤ m.length)) :
    m.window start stop = .error (.invalidAddress (max start m.length)) := dif_neg h

/-- A part of memory has the bytes that memory has there. -/
theorem getElem?_extract_toList (hstop : stop ≤ m.length) {k : Nat} (hk : k < stop - start) :
    (m.bytes.extract start stop).toList[k]? = m.bytes[start + k]? := by
  have hsize : stop ≤ m.bytes.size := hstop
  rw [Array.getElem?_toList, Array.getElem?_extract, Nat.min_eq_left hsize, if_pos hk]

/-- What stands in memory after values were put into a window. -/
theorem getElem?_put (h : start ≤ stop ∧ stop ≤ m.length) {w : Window (stop - start)}
    (hbytes : w.bytes.toList = (m.bytes.extract start stop).toList)
    (hreplaced : ∀ bytes, w.replaced bytes = m.splice start bytes.toList)
    (values : Nat → Option UInt8) (a : Nat) : (w.put values).bytes[a]?
      = (if start ≤ a ∧ a < stop then values (a - start) else none).or m.bytes[a]? := by
  rw [Window.put, hreplaced, getElem?_splice, Vector.toList_ofFn, List.length_ofFn]
  by_cases hin : start ≤ a ∧ a < stop
  · have hk : a - start < stop - start := by omega
    have hold : some w.bytes[a - start] = m.bytes[a]? := by
      rw [← Vector.getElem?_eq_getElem, ← Vector.getElem?_toList, hbytes,
        getElem?_extract_toList h.2 hk, Nat.add_sub_cancel' hin.1]
    rw [if_pos (by omega), if_pos hin, List.getElem?_ofFn, dif_pos hk, ← hold]
    cases values (a - start) <;> rfl
  · rw [if_neg (by omega), if_neg hin, Option.none_or]

theorem fits_window_iff {values : Nat → Option UInt8} {length : Nat} :
    (Write.window start stop values).fits length = true ↔ start ≤ stop ∧ stop ≤ length := by
  rw [Write.fits, Bool.and_eq_true, decide_eq_true_eq, decide_eq_true_eq]

theorem fits_set_iff {value : UInt8} {length : Nat} :
    (Write.set address value).fits length = true ↔ address < length := decide_eq_true_iff

/-- **A write that fits** puts its values into their places, and leaves the others. -/
theorem write_fits {w : Write} (h : w.fits m.length = true) : ∃ n, m.write w = .ok n
    ∧ n.length = m.length ∧ ∀ a, n.bytes[a]? = (w.at? a).or m.bytes[a]? := by
  cases w with
  | set address value =>
    have hin : address < m.bytes.size := fits_set_iff.mp h
    refine ⟨_, dif_pos hin, Array.size_set hin, fun a => ?_⟩
    show (m.bytes.set address value hin)[a]? = (if address = a then some value else none).or _
    rw [Array.getElem?_set]
    split <;> rfl
  | window start stop values =>
    have hin := fits_window_iff.mp h
    obtain ⟨w, hw, hbytes, hreplaced⟩ := window_of_le hin
    refine ⟨w.put values, ?_, ?_, getElem?_put hin hbytes hreplaced values⟩
    · rw [write, hw]
      rfl
    · rw [Window.put, hreplaced, length_splice]

/-- **A write that does not fit** names the first address outside. -/
theorem write_misfits {w : Write} (h : ¬ w.fits m.length = true) :
    m.write w = .error (.invalidAddress (w.firstOutside m.length)) := by
  cases w with
  | set address value => exact dif_neg fun hin => h (fits_set_iff.mpr hin)
  | window start stop values =>
    rw [write, window_of_not_le fun hin => h (fits_window_iff.mpr hin)]
    rfl

/-- A block that is spliced in is a write through a window. -/
theorem write_window_eq_splice {values : Nat → Option UInt8} {block : List UInt8}
    (hlength : block.length = stop - start) (hvalues : ∀ k < stop - start, values k = block[k]?) :
    m.write (.window start stop values) = (do
      m.check start stop
      return m.splice start block) := by
  by_cases hin : start ≤ stop ∧ stop ≤ m.length
  · obtain ⟨w, hw, hbytes, hreplaced⟩ := window_of_le hin
    rw [write, hw, check_eq_ok_iff.mpr hin]
    refine congrArg Except.ok (congrArg mk (Array.ext_getElem? fun a => ?_))
    show (w.put values).bytes[a]? = (m.splice start block).bytes[a]?
    rw [getElem?_put hin hbytes hreplaced, getElem?_splice, hlength]
    by_cases ha : start ≤ a ∧ a < stop
    · have hk : a - start < block.length := by omega
      rw [if_pos ha, if_pos (by omega), hvalues _ (by omega), List.getElem?_eq_getElem hk, Option.some_or]
    · rw [if_neg ha, if_neg (by omega), Option.none_or]
  · rw [write, window_of_not_le hin, check, if_neg hin]
    rfl

/-- Filling is writing one byte into every place of a window. -/
theorem fill_eq_write (m : Memory) (start stop : Nat) (value : UInt8) :
    m.fill start stop value = m.write (.window start stop fun _ => some value) := by
  refine (write_window_eq_splice List.length_replicate fun k hk => ?_).symm
  rw [List.getElem?_replicate, if_pos hk]

/-- Storing is writing a block into a window of its length. -/
theorem store_eq_write (m : Memory) (start : Nat) (block : List UInt8) :
    m.store start block = m.write (.window start (start + block.length) fun k => block[k]?) :=
  (write_window_eq_splice (Nat.add_sub_cancel_left ..).symm fun _ _ => rfl).symm

/-! ## Many writes -/

/-- A write that fits puts its bytes over those that were there, and no memory gets longer by it. -/
theorem attempt_of_fits {w : Write} (h : w.fits m.length = true) :
    (m.attempt w).length = m.length ∧ ∀ a, (m.attempt w).bytes[a]? = (w.at? a).or m.bytes[a]? := by
  obtain ⟨n, hn, hlength, hbytes⟩ := write_fits h
  rw [attempt, hn]
  exact ⟨hlength, hbytes⟩

/-- A write that does not fit writes nothing. -/
theorem attempt_of_misfits {w : Write} (h : ¬ w.fits m.length = true) : m.attempt w = m := by
  rw [attempt, write_misfits h]

theorem length_attempt (m : Memory) (w : Write) : (m.attempt w).length = m.length := by
  by_cases h : w.fits m.length = true
  · exact (attempt_of_fits h).1
  · rw [attempt_of_misfits h]

theorem length_after (m : Memory) (writes : List Write) : (m.after writes).length = m.length := by
  induction writes generalizing m with
  | nil => rfl
  | cons w writes ih => exact (ih _).trans (length_attempt m w)

/-- **An address holds the last value that a write that fitted put there.** -/
theorem byte_after (m : Memory) (writes : List Write) (a : Nat) : (m.after writes).bytes[a]?
    = (lastPut (Write.at? a) (writes.filter (Write.fits m.length))).or m.bytes[a]? := by
  rw [lastPut, List.filterMap_filter]
  refine holds_foldl (fun n => n.length = m.length) (fun n => n.bytes[a]?)
    (fun n w hn => (length_attempt n w).trans hn) (fun n w hn => ?_) rfl writes
  rw [← hn]
  by_cases h : w.fits n.length = true
  · rw [if_pos h]
    exact (attempt_of_fits h).2 a
  · rw [if_neg h, attempt_of_misfits h, Option.none_or]

/-! ## Reading -/

/-- The address a byte is read from, or the one that is reported. -/
theorem get_after (m : Memory) (writes : List Write) (a : Nat) : (m.after writes).get a
    = match lastPut (Write.at? a) (writes.filter (Write.fits m.length)) with
      | some value => .ok value
      | none => m.get a := by
  rw [get, get, byte_after]
  cases lastPut (Write.at? a) (writes.filter (Write.fits m.length)) <;> rfl

/-- A slice that is in order and ends inside memory is read. -/
theorem slice_of_le (h : start ≤ stop ∧ stop ≤ m.length) :
    m.slice start stop = .ok (m.bytes.extract start stop).toList := by
  rw [slice, check_eq_ok_iff.mpr h]
  rfl

/-- Any other is refused, like a window. -/
theorem slice_of_not_le (h : ¬ (start ≤ stop ∧ stop ≤ m.length)) :
    m.slice start stop = .error (.invalidAddress (max start m.length)) := by
  rw [slice, check, if_neg h]
  rfl

/-- The bytes of a stretch of memory are the ones that are read one by one. -/
theorem exists_get_of_lt (hstop : stop ≤ m.length) {k : Nat} (hk : start + k < stop) :
    ∃ b, (m.bytes.extract start stop).toList[k]? = some b ∧ m.get (start + k) = .ok b := by
  have hin : start + k < m.bytes.size := Nat.lt_of_lt_of_le hk hstop
  refine ⟨m.bytes[start + k], ?_, get_eq_ok_iff.mpr (Array.getElem?_eq_getElem hin)⟩
  rw [getElem?_extract_toList hstop (by omega), Array.getElem?_eq_getElem hin]

/-- **A word is a slice of two bytes**, or is refused as the slice is. -/
theorem word_as_slice (m : Memory) (address : Nat) : match m.slice address (address + 2) with
    | .ok block => ∃ high low word, block = [high, low] ∧ m.get address = .ok high
      ∧ m.get (address + 1) = .ok low ∧ m.word address = .ok word
      ∧ word.toNat = 256 * high.toNat + low.toNat
    | .error e => m.word address = .error e := by
  by_cases hin : address + 2 ≤ m.length
  · have hrange : address ≤ address + 2 ∧ address + 2 ≤ m.length := ⟨Nat.le_add_right .., hin⟩
    rw [slice_of_le hrange]
    have hlength : (m.bytes.extract address (address + 2)).toList.length = 2 :=
      length_of_slice_eq_ok (slice_of_le hrange)
    obtain ⟨high, hfirst, hhigh⟩ :=
      exists_get_of_lt hin (show address + 0 < address + 2 by omega)
    obtain ⟨low, hsecond, hlow⟩ := exists_get_of_lt hin (show address + 1 < address + 2 by omega)
    generalize (m.bytes.extract address (address + 2)).toList = block at hlength hfirst hsecond
    match block, hlength with
    | [a, b], _ =>
      obtain rfl := Option.some.inj hfirst
      obtain rfl := Option.some.inj hsecond
      exact ⟨a, b, _, rfl, hhigh, hlow, word_eq_ok_iff.mpr
        ⟨a, b, get_eq_ok_iff.mp hhigh, get_eq_ok_iff.mp hlow, rfl⟩, Word.toNat_ofBytes a b⟩
  · rw [slice_of_not_le fun hrange => hin hrange.2]
    exact word_of_length_le (by omega)

/-! ## All views agree -/

/-- **A memory is a map from addresses to bytes.**  Take a memory of any length, and any writes to it, of
which some may fail.
  * The length is what it was.  A write succeeds exactly if it fits, and else names its first address
    outside and changes nothing.  A byte that is read is the last one that a write that fitted put there,
    or the one that was there at first.
  * A slice and a window are to be had of exactly the stretches inside memory, and show the bytes that are
    read one by one; both are refused with one and the same address, the first outside.
  * A word is read exactly where a slice of two bytes is, has the first as its high byte, and is refused
    with the address of the slice.
  * Filling a stretch and storing a block are such writes. -/
theorem views_agree (m : Memory) (writes : List Write) :
    let n := m.after writes
    n.length = m.length
    ∧ (∀ w : Write, if w.fits m.length then ∃ n', n.write w = .ok n' ∧ n.attempt w = n'
        else n.write w = .error (.invalidAddress (w.firstOutside m.length)) ∧ n.attempt w = n)
    ∧ (∀ a, n.get a = match lastPut (Write.at? a) (writes.filter (Write.fits m.length)) with
        | some value => .ok value
        | none => m.get a)
    ∧ (∀ start stop, if start ≤ stop ∧ stop ≤ m.length
        then ∃ block w, n.slice start stop = .ok block ∧ n.window start stop = .ok w
          ∧ w.bytes.toList = block ∧ block.length = stop - start
          ∧ ∀ k, start + k < stop → ∃ b, block[k]? = some b ∧ n.get (start + k) = .ok b
        else n.slice start stop = .error (.invalidAddress (max start m.length))
          ∧ n.window start stop = .error (.invalidAddress (max start m.length)))
    ∧ (∀ address, match n.slice address (address + 2) with
        | .ok block => ∃ high low word, block = [high, low] ∧ n.get address = .ok high
          ∧ n.get (address + 1) = .ok low ∧ n.word address = .ok word
          ∧ word.toNat = 256 * high.toNat + low.toNat
        | .error e => n.word address = .error e)
    ∧ (∀ start stop value, n.fill start stop value = n.write (.window start stop fun _ => some value))
    ∧ ∀ start block,
      n.store start block = n.write (.window start (start + block.length) fun k => block[k]?) := by
  intro n
  have hlength : n.length = m.length := length_after m writes
  refine ⟨hlength, fun w => ?_, get_after m writes, fun start stop => ?_, word_as_slice n,
    fill_eq_write n, store_eq_write n⟩
  · rw [← hlength]
    by_cases h : w.fits n.length = true
    · obtain ⟨n', hn', -, -⟩ := write_fits h
      rw [if_pos h, attempt, hn']
      exact ⟨n', rfl, rfl⟩
    · rw [if_neg h]
      exact ⟨write_misfits h, attempt_of_misfits h⟩
  · rw [← hlength]
    by_cases h : start ≤ stop ∧ stop ≤ n.length
    · obtain ⟨w, hw, hbytes, -⟩ := window_of_le h
      have hcount : (n.bytes.extract start stop).toList.length = stop - start := by
        rw [← hbytes, Vector.length_toList]
      rw [if_pos h]
      exact ⟨_, w, slice_of_le h, hw, hbytes, hcount, fun k hk => exists_get_of_lt h.2 hk⟩
    · rw [if_neg h]
      exact ⟨slice_of_not_le h, window_of_not_le h⟩

/-! ## Examples -/

-- The second and the third write do not fit.
example : (after ⟨#[1, 2, 3, 4]⟩ [.window 1 3 fun k => if k = 0 then some 9 else none, .set 4 7,
    .window 3 2 fun _ => some 0, .set 2 8]).bytes = #[1, 9, 8, 4] := by decide

end Chip8.Memory
