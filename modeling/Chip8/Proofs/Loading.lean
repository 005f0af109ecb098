/-
  Loading programs.

  A load wipes program memory and puts the program at its start.  So nothing of an earlier program is
  left, whatever their lengths are, and of many loads only the last one that succeeded counts.
  1. **One load** (`Loaded`).  Every byte of a loaded memory is known, so there is only one such memory
     (`Loaded.unique`).  It is left by a fill with zeros and a store (`load_eq_fill_store`).
  2. **Many loads** (`afterLoads_eq`).  What a load leaves does not depend on what was in program memory
     (`load_congr`), so after a load every load does what it would have done before (`load_load`).
-/
import Chip8.Proofs.LastWrite
import Chip8.Proofs.Operation
import Chip8.Proofs.Run

namespace Chip8

namespace Memory

/-- Is there room for the program in program memory? -/
def hasRoom (program : List UInt8) : Bool := program.length ≤ Region.programLength

/-- The memory after a load, whether that went well or not. -/
def afterLoad (m : Memory) (program : List UInt8) : Memory :=
  match m.load program with
  | .ok n => n
  | .error _ => m

/-- The memory after many loads. -/
def afterLoads (m : Memory) (programs : List (List UInt8)) : Memory := programs.foldl afterLoad m

/-- The new memory is the old one with the program at the start of program memory, zeros behind it up to
the end of that, and nothing else changed. -/
structure Loaded (old : Memory) (program : List UInt8) (new : Memory) : Prop where
  length : new.length = old.length
  below : ∀ a < programStart, new.get a = old.get a
  code : ∀ k (h : k < program.length), new.get (programStart + k) = .ok program[k]
  rest : ∀ a, programStart + program.length ≤ a → a < memorySize → new.get a = .ok 0
  above : ∀ a, memorySize ≤ a → new.get a = old.get a

variable {m n : Memory} {program : List UInt8}

/-! ## One load -/

theorem hasRoom_iff : hasRoom program = true ↔ program.length ≤ Region.programLength :=
  decide_eq_true_iff

/-- Memories in which the same is read are the same. -/
theorem ext_get (h : ∀ a, m.get a = n.get a) : m = n := by
  refine congrArg mk (Array.ext_getElem? fun a => Option.ext fun b => ?_)
  rw [← get_eq_ok_iff, ← get_eq_ok_iff, h a]

theorem get_congr {a : Nat} (h : m.bytes[a]? = n.bytes[a]?) : m.get a = n.get a := by
  rw [get, get, h]

/-- There is only one memory that a load can leave. -/
theorem Loaded.unique {n' : Memory} (h : Loaded m program n) (h' : Loaded m program n') : n = n' := by
  refine ext_get fun a => ?_
  by_cases hbelow : a < programStart
  · exact (h.below a hbelow).trans (h'.below a hbelow).symm
  by_cases hprogram : a < programStart + program.length
  · obtain ⟨k, rfl⟩ := Nat.exists_eq_add_of_le (Nat.le_of_not_lt hbelow)
    have hk : k < program.length := Nat.lt_of_add_lt_add_left hprogram
    exact (h.code k hk).trans (h'.code k hk).symm
  have hrest : programStart + program.length ≤ a := Nat.le_of_not_lt hprogram
  by_cases hmemory : a < memorySize
  · exact (h.rest a hrest hmemory).trans (h'.rest a hrest hmemory).symm
  · have habove : memorySize ≤ a := Nat.le_of_not_lt hmemory
    exact (h.above a habove).trans (h'.above a habove).symm

theorem loaded_of_load (h : m.load program = .ok n) : Loaded m program n := by
  have hroom : programStart + Region.programLength = memorySize := rfl
  obtain ⟨⟨hfits, -⟩, -⟩ := load_eq_ok_iff.mp h
  refine ⟨length_load h, fun a ha => get_congr ?_, fun k hk => get_eq_ok_iff.mpr ?_,
    fun a hstart hstop => get_eq_ok_iff.mpr ?_, fun a ha => get_congr ?_⟩
  · rw [getElem?_load h, if_neg (by omega)]
  · exact byte_load h (List.getElem?_eq_getElem hk)
  · rw [getElem?_load h, if_pos (by omega), List.getElem?_eq_none (by omega)]
    rfl
  · rw [getElem?_load h, if_neg (by omega)]

/-- **A program with room is loaded**, and this is the memory it leaves. -/
theorem load_of_hasRoom (hm : memorySize ≤ m.length) (h : hasRoom program = true) :
    ∃ n, m.load program = .ok n ∧ ∀ n', Loaded m program n' ↔ n' = n := by
  have hload := load_eq_ok_iff.mpr ⟨⟨hasRoom_iff.mp h, hm⟩, rfl⟩
  refine ⟨_, hload, fun n' => ⟨fun h' => h'.unique (loaded_of_load hload), ?_⟩⟩
  rintro rfl
  exact loaded_of_load hload

/-- **A program without room is refused.** -/
theorem load_of_not_hasRoom (h : ¬ hasRoom program = true) : m.load program
    = .error (.error (.programTooLarge program.length Region.programLength)) :=
  if_pos (Nat.lt_of_not_le fun hle => h (hasRoom_iff.mpr hle))

/-- A program is loaded by filling program memory with zeros and storing the program at its start. -/
theorem load_eq_fill_store (hm : memorySize ≤ m.length) (h : hasRoom program = true) :
    ∃ wiped n, m.fill programStart memorySize 0 = .ok wiped ∧ wiped.store programStart program = .ok n
      ∧ m.load program = .ok n := by
  have hfits := hasRoom_iff.mp h
  have hroom : programStart + Region.programLength = memorySize := rfl
  have hfill : m.fill programStart memorySize 0
      = .ok (m.splice programStart (List.replicate Region.programLength 0)) := by
    rw [fill, check_eq_ok_iff.mpr ⟨by decide, hm⟩]
    rfl
  refine ⟨_, _, hfill, store_eq_ok_iff.mpr ⟨by rw [length_splice]; omega, rfl⟩,
    load_eq_ok_iff.mpr ⟨⟨hfits, hm⟩, ?_⟩⟩
  rw [splice_splice _ _ (by rwa [List.length_replicate]), List.drop_replicate]

/-! ## Many loads -/

/-- After a load, every load does what it would have done before. -/
theorem load_load (h : m.load program = .ok n) (next : List UInt8) : n.load next = m.load next :=
  load_congr (length_load h) (fun a ha => by rw [getElem?_load h, if_neg ha]) next

/-- **Of many loads the last one that succeeds counts.** -/
theorem afterLoads_eq_getD (m : Memory) (programs : List (List UInt8)) :
    m.afterLoads programs = (lastPut (fun program => (m.load program).toOption) programs).getD m := by
  have hlast : some (m.afterLoads programs)
      = (lastPut (fun program => (m.load program).toOption) programs).or (some m) := by
    -- What a memory has to have in common with the first is how it takes loads.
    refine holds_foldl (fun n => ∀ program, n.load program = m.load program) some
      (fun n program hn next => ?_) (fun n program hn => ?_) (fun _ => rfl) programs
    · rw [afterLoad]
      cases hload : n.load program with
      | ok n' => exact (load_load hload next).trans (hn next)
      | error _ => exact hn next
    · rw [afterLoad, ← hn program]
      cases n.load program <;> rfl
  exact Option.some.inj (hlast.trans Option.or_some)

/-- **In a memory of full size, the last program with room counts.** -/
theorem afterLoads_eq (hm : memorySize ≤ m.length) (programs : List (List UInt8)) :
    m.afterLoads programs = match (programs.filter hasRoom).getLast? with
      | some program => m.afterLoad program
      | none => m := by
  have hputs : (fun program => (m.load program).toOption)
      = fun program => if hasRoom program = true then some (m.afterLoad program) else none := by
    funext program
    by_cases h : hasRoom program = true
    · obtain ⟨n, hload, -⟩ := load_of_hasRoom hm h
      rw [if_pos h, afterLoad, hload]
      rfl
    · rw [if_neg h, load_of_not_hasRoom h]
      rfl
  rw [afterLoads_eq_getD, hputs, lastPut, ← List.filterMap_filter, List.filterMap_eq_map',
    List.getLast?_map]
  cases (programs.filter hasRoom).getLast? <;> rfl

end Memory

/-! ## Loads into a machine -/

namespace Machine

variable {ρ : Type} {m : Machine ρ}

/-- A load changes the memory of a machine and nothing else. -/
theorem state_load (m : Machine ρ) (program : List UInt8) :
    (m.load program).state = { m with memory := m.memory.afterLoad program } := by
  unfold load Memory.afterLoad
  cases m.memory.load program <;> rfl

theorem load_of_hasRoom (hm : memorySize ≤ m.memory.length) {program : List UInt8}
    (h : Memory.hasRoom program = true) :
    m.load program = .done { m with memory := m.memory.afterLoad program } := by
  obtain ⟨n, hload, -⟩ := Memory.load_of_hasRoom hm h
  rw [load, Memory.afterLoad, hload]

theorem load_of_not_hasRoom {program : List UInt8} (h : ¬ Memory.hasRoom program = true) :
    m.load program
      = .failed (.error (.programTooLarge program.length Region.programLength)) m := by
  rw [load, Memory.load_of_not_hasRoom h]

/-- Many loads, too, change only the memory. -/
theorem after_loads [ByteSource ρ] (m : Machine ρ) (programs : List (List UInt8)) :
    m.after (programs.map .load) = { m with memory := m.memory.afterLoads programs } := by
  induction programs generalizing m with
  | nil => rfl
  | cons program programs ih =>
    show (m.load program).state.after (programs.map .load) = _
    rw [state_load, ih]
    rfl

end Machine

/-! ## The last load -/

/-- **The last load wins.**  Take a memory of full size or longer.
  * A program of more than 0xe00 bytes is refused, and changes nothing.  Every other program is loaded: it
    stands at 0x200, the rest of program memory up to 0x1000 is zero, and what lies below and above is as
    it was, so the memory afterwards is known to the last byte.  It is the one that is left by filling
    program memory with zeros and storing the program.
  * After any number of loads, memory is as if only the last one that was not refused had been made.
  * All of this is what loads do to a machine, and they do nothing else to it. -/
theorem Memory.last_load_wins {m : Memory} (hm : memorySize ≤ m.length) :
    (∀ program, if Region.programLength < program.length
      then m.load program = .error (.error (.programTooLarge program.length Region.programLength))
        ∧ m.afterLoad program = m
      else ∃ n, m.load program = .ok n ∧ m.afterLoad program = n ∧ (∀ n', m.Loaded program n' ↔ n' = n)
        ∧ ∃ wiped, m.fill programStart memorySize 0 = .ok wiped
          ∧ wiped.store programStart program = .ok n)
    ∧ (∀ programs, m.afterLoads programs
      = match (programs.filter fun program => program.length ≤ Region.programLength).getLast? with
        | some program => m.afterLoad program
        | none => m)
    ∧ ∀ {ρ : Type} [ByteSource ρ] (machine : Machine ρ), machine.memory = m →
      (∀ program, machine.load program = if Region.programLength < program.length
        then .failed (.error (.programTooLarge program.length Region.programLength)) machine
        else .done { machine with memory := m.afterLoad program })
      ∧ ∀ programs, machine.after (programs.map .load)
        = { machine with memory := m.afterLoads programs } := by
  have hroom : ∀ {program : List UInt8}, ¬ Region.programLength < program.length →
      hasRoom program = true := fun h => hasRoom_iff.mpr (Nat.le_of_not_lt h)
  have hnone : ∀ {program : List UInt8}, Region.programLength < program.length →
      ¬ hasRoom program = true := fun h hle => Nat.not_le.mpr h (hasRoom_iff.mp hle)
  refine ⟨fun program => ?_, afterLoads_eq hm, fun machine hmachine => ⟨fun program => ?_, ?_⟩⟩
  · split
    · have hload := load_of_not_hasRoom (m := m) (hnone ‹_›)
      exact ⟨hload, by rw [afterLoad, hload]⟩
    · obtain ⟨n, hload, hloaded⟩ := load_of_hasRoom hm (hroom ‹_›)
      obtain ⟨wiped, n', hfill, hstore, hload'⟩ := load_eq_fill_store hm (hroom ‹_›)
      obtain rfl : n' = n := Except.ok.inj (hload'.symm.trans hload)
      exact ⟨n', hload, by rw [afterLoad, hload], hloaded, wiped, hfill, hstore⟩
  · subst hmachine
    split
    · exact Machine.load_of_not_hasRoom (hnone ‹_›)
    · exact Machine.load_of_hasRoom hm (hroom ‹_›)
  · subst hmachine
    exact machine.after_loads

/-- A memory with one byte more than it needs, all of them sevens, takes the longest program there is,
refuses one that is longer by a byte, and takes a short one, which is all that is left of them. -/
theorem Memory.last_load_wins_past_end :
    let m : Memory := ⟨Array.replicate 0x1001 7⟩
    let longest : List UInt8 := List.replicate 0xe00 1
    let tooLong : List UInt8 := List.replicate 0xe01 2
    memorySize ≤ m.length
    ∧ m.load tooLong = .error (.error (.programTooLarge 0xe01 0xe00))
    ∧ (m.afterLoads [longest, tooLong]).get 0xfff = .ok 1
    ∧ ∃ n, m.afterLoads [longest, tooLong, [0x12, 0x34]] = n ∧ m.load [0x12, 0x34] = .ok n
      ∧ n.get 0x1ff = .ok 7 ∧ n.get 0x200 = .ok 0x12 ∧ n.get 0x201 = .ok 0x34 ∧ n.get 0x202 = .ok 0
      ∧ n.get 0xfff = .ok 0 ∧ n.get 0x1000 = .ok 7 := by
  intro m longest tooLong
  have hlength : m.length = 0x1001 := Array.size_replicate
  have hm : memorySize ≤ m.length := hlength ▸ by decide
  have hsevens : ∀ a < 0x1001, m.get a = .ok 7 := fun a ha =>
    get_eq_ok_iff.mpr (Array.getElem?_replicate.trans (if_pos ha))
  have hlongest : longest.length = 0xe00 := List.length_replicate
  have hones : ∀ k (h : k < longest.length), longest[k] = 1 := fun _ _ => List.getElem_replicate ..
  have htooLong : tooLong.length = 0xe01 := List.length_replicate
  clear_value m longest tooLong
  obtain ⟨hload, hloads, -⟩ := last_load_wins hm
  have hrefused := hload tooLong
  rw [htooLong, if_pos (by decide)] at hrefused
  have htaken := hload longest
  rw [hlongest, if_neg (by decide)] at htaken
  have hreplaced := hload [0x12, 0x34]
  rw [if_neg (by decide)] at hreplaced
  obtain ⟨first, -, hfirst, hfirstLoaded, -⟩ := htaken
  obtain ⟨n, hlast, hn, hloaded, -⟩ := hreplaced
  have hfull := (hfirstLoaded first).mpr rfl
  have hshort := (hloaded n).mpr rfl
  refine ⟨hm, hrefused.1, ?_, n, ?_, hlast, ?_, hshort.code 0 (by decide), hshort.code 1 (by decide),
    hshort.rest 0x202 (by decide) (by decide), hshort.rest 0xfff (by decide) (by decide), ?_⟩
  · rw [hloads, List.filter_cons_of_pos (by rw [hlongest]; decide),
      List.filter_cons_of_neg (by rw [htooLong]; decide)]
    show (m.afterLoad longest).get 0xfff = _
    have hend : 0xfff = programStart + 0xdff := by decide
    rw [hfirst, hend, hfull.code 0xdff (by rw [hlongest]; decide), hones]
  · rw [hloads, List.filter_cons_of_pos (by rw [hlongest]; decide),
      List.filter_cons_of_neg (by rw [htooLong]; decide)]
    exact hn
  · rw [hshort.below _ (by decide), hsevens _ (by decide)]
  · rw [hshort.above _ (by decide), hsevens _ (by decide)]

end Chip8
