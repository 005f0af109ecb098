/-
  The listing says what the machine fetches.

  A program is listed from its bytes — cut at an offset, taken in pairs, an odd byte at the end left out —
  and it is run from memory, where it was loaded at 0x200 and is fetched from at the program counter.  The
  two know nothing of each other.
  1. **Pairs** (`getElem?_wordsOf`).  The k-th word is made of the bytes at twice k and behind it.  So
     there are half as many words as bytes, rounded down.
  2. **The crux** (`word_of_listed`).  The k-th word of what is behind the offset stands in memory 0x200,
     the offset and twice k from the beginning; whoever fetches there traces that word.
  3. **Green** (`style_eq_green_iff`).  A word is green if it is one of an instruction, and no machine
     refuses to know such a word, whatever else may go wrong (`known_of_ofWord?`).
  4. **One line each** (`count_newline_listingLine`).  Nothing in a line ends it but its end.
  5. **Addresses** (`Checked.listing_ok`).  An address is computed only where there is a word, and so it
     has 64 bits, whatever the offset is.
-/
import Chip8.Machine.Report
import Chip8.Proofs.Assembly
import Chip8.Proofs.Run
import Chip8.Proofs.Safety
import Chip8.Proofs.Settings
import Chip8.Proofs.Writes

namespace Chip8

variable {ρ : Type}

/-! ## Pairs -/

/-- A last single byte is not listed, so there are half as many words as bytes. -/
theorem length_wordsOf (bytes : List UInt8) : (wordsOf bytes).length = bytes.length / 2 := by
  fun_induction wordsOf bytes with
  | case1 high low rest ih =>
    rw [List.length_cons, ih, List.length_cons, List.length_cons]
    omega
  | case2 bytes hshort =>
    have hlt : bytes.length < 2 := by
      match bytes, hshort with
      | [], _ => exact Nat.zero_lt_two
      | [b], _ => exact Nat.one_lt_two
      | high :: low :: rest, hshort => exact (hshort high low rest rfl).elim
    show 0 = bytes.length / 2
    omega

/-- The k-th word is made of two bytes, twice k from the beginning. -/
theorem getElem?_wordsOf {bytes : List UInt8} {k : Nat} {w : UInt16}
    (h : (wordsOf bytes)[k]? = some w) : ∃ high low, bytes[2 * k]? = some high
      ∧ bytes[2 * k + 1]? = some low ∧ Word.ofBytes high low = w := by
  fun_induction wordsOf bytes generalizing k with
  | case1 high low rest ih =>
    cases k with
    | zero => exact ⟨high, low, rfl, rfl, Option.some.inj h⟩
    | succ k =>
      obtain ⟨high', low', hhigh, hlow, hword⟩ := ih h
      exact ⟨high', low', hhigh, hlow, hword⟩
  | case2 bytes hshort => cases h

/-- As many lines as complete words behind the offset. -/
theorem length_listing (origin offset : Nat) (program : List UInt8) :
    (listing origin offset program).length = (program.length - offset) / 2 := by
  rw [listing, List.length_mapIdx, length_wordsOf, List.length_drop]

/-- Each line is that of its word, wherever the program is taken to stand. -/
theorem getElem?_listing {offset k : Nat} {program : List UInt8} {w : UInt16}
    (h : (wordsOf (program.drop offset))[k]? = some w) (origin : Nat) :
    (listing origin offset program)[k]? = some (listingLine (origin + offset + 2 * k) w) := by
  rw [listing, List.getElem?_mapIdx, h]
  rfl

/-! ## The same words in memory -/

namespace Machine

/-- **What is listed stands in memory.** -/
theorem word_of_listed {offset k : Nat} {program : List UInt8} {w : UInt16}
    (h : (wordsOf (program.drop offset))[k]? = some w) {m n : Machine ρ}
    (hload : m.load program = .done n) :
    n.memory.word (programStart + offset + 2 * k) = .ok w := by
  obtain ⟨high, low, hhigh, hlow, rfl⟩ := getElem?_wordsOf h
  rw [List.getElem?_drop] at hhigh hlow
  rw [Nat.add_assoc]
  unfold load at hload
  split at hload
  next memory hmemory =>
    obtain rfl := Outcome.done.inj hload
    exact Memory.word_load hmemory hhigh (by rwa [Nat.add_assoc])
  next => cases hload

variable [ByteSource ρ]

/-- A step that is traced writes down the word it fetched. -/
theorem trace_step {m : Machine ρ} {w : UInt16} (hswitches : m.switches = ⟨true, false⟩)
    (hfetch : m.fetch = .ok w) : m.step.state.trace = m.trace.push ⟨m.cycle, m.pc, w⟩ := by
  have hrun : m.switches.paused = false := by rw [hswitches]
  have htracing : m.switches.tracing = true := by rw [hswitches]
  obtain ⟨-, -, htrace⟩ := unwritten_executeWord (m.advance w) w
  rw [step_of_upcoming (upcoming_eq_some_iff.mpr ⟨hrun, hfetch⟩), htrace]
  simp only [advance, htracing, if_true]

end Machine

/-! ## Words that machines know -/

/-- Does the outcome not say that a word is unknown? -/
def Outcome.Known {σ : Type} (o : Outcome σ) : Prop := ∀ v s, o ≠ .failed (.error (.unimplemented v)) s

namespace Outcome

variable {σ : Type} {s : σ}

theorem known_done : (done s).Known := nofun

theorem known_crash {crash : Crash} : (failed (.crash crash) s).Known := nofun

theorem known_invalidAddress {a : Nat} : (failed (.error (.invalidAddress a)) s).Known := nofun

end Outcome

/-- A check of memory fails with an address. -/
theorem Memory.exists_of_check_error {m : Memory} {start stop : Nat} {e : Error}
    (h : m.check start stop = .error e) : ∃ a, e = .invalidAddress a := by
  unfold check at h
  split at h
  next => cases h
  next => exact ⟨_, (Except.error.inj h).symm⟩

theorem Memory.exists_of_slice_error {m : Memory} {start stop : Nat} {e : Error}
    (h : m.slice start stop = .error e) : ∃ a, e = .invalidAddress a := by
  unfold slice at h
  cases hcheck : m.check start stop with
  | ok =>
    rw [hcheck] at h
    cases h
  | error e' =>
    rw [hcheck] at h
    obtain rfl := Except.error.inj h
    exact exists_of_check_error hcheck

namespace Machine

variable (m : Machine ρ)

/-- A return that fails reports the empty stack, and not its word. -/
theorem known_returnFromCall : m.returnFromCall.Known := by
  unfold returnFromCall
  split
  · exact Outcome.known_done
  · exact nofun
  · exact Outcome.known_crash

theorem known_call (a : UInt16) : (m.call a).Known := by
  unfold call
  split
  · exact Outcome.known_done
  · exact nofun

theorem known_storeBlock (block : List UInt8) : (m.storeBlock block).Known := by
  unfold storeBlock
  split
  next => exact Outcome.known_done
  next e he =>
    obtain ⟨a, rfl⟩ := Memory.exists_of_check_error he
    exact Outcome.known_invalidAddress

theorem known_loadRegisters (x : Fin 16) : (m.loadRegisters x).Known := by
  unfold loadRegisters
  split
  next => exact Outcome.known_done
  next e he =>
    obtain ⟨a, rfl⟩ := Memory.exists_of_slice_error he
    exact Outcome.known_invalidAddress

theorem known_drawSprite (x y : Fin 16) (rows : UInt8) : (m.drawSprite x y rows).Known := by
  unfold drawSprite
  dsimp only
  split
  next e he =>
    obtain ⟨a, rfl⟩ := Memory.exists_of_slice_error he
    exact Outcome.known_invalidAddress
  next =>
    split
    · exact Outcome.known_done
    · exact Outcome.known_crash

variable [ByteSource ρ]

/-- **A word of an instruction is known to every machine.** -/
theorem known_of_ofWord? {w : UInt16} {i : Instruction} (h : Instruction.ofWord? w = some i) :
    (m.executeWord w).Known := by
  obtain ⟨hx, hy⟩ := Instruction.inRange_of_ofWord? h
  rw [executeWord, h]
  show (m.perform i).Known
  cases i <;> simp only [Instruction.operand] at hx hy <;>
    simp only [perform, withRegister_of_lt, hx, hy]
  case returnFromCall => exact m.known_returnFromCall
  case call a => exact m.known_call a
  case draw rows => exact m.known_drawSprite _ _ rows
  case storeDecimal | storeRegisters => exact m.known_storeBlock _
  case loadRegisters => exact m.known_loadRegisters _
  all_goals exact Outcome.known_done

/-- A word is green if the machine knows it, whichever machine that is. -/
theorem style_eq_green_iff {w : UInt16} :
    Palette.coloured.style w = .green ↔ (m.executeWord w).Known := by
  unfold Palette.style
  cases hw : Instruction.ofWord? w with
  | some i => exact iff_of_true rfl (m.known_of_ofWord? hw)
  | none =>
    refine iff_of_false (by decide) fun hknown => hknown w m ?_
    rw [executeWord, hw]

end Machine

/-! ## One line each -/

/-- What a layout writes are its literal characters, and digits. -/
theorem Layout.mem_write {operand : Field → Nat} {layout : Layout} {c : Char}
    (h : c ∈ layout.write operand) : .is c ∈ layout ∨ Hex.isDigit c = true := by
  induction layout with
  | nil => cases h
  | cons piece layout ih =>
    cases piece with
    | is d =>
      rcases List.mem_cons.mp h with rfl | hrest
      · exact .inl (List.mem_cons_self ..)
      · exact (ih hrest).imp_left (List.mem_cons_of_mem _)
    | of f =>
      rcases List.mem_append.mp h with hdigit | hrest
      · exact .inr (Field.isDigit_of_mem_numeral c hdigit)
      · exact (ih hrest).imp_left (List.mem_cons_of_mem _)

/-- No layout has a line break in it. -/
theorem Opcode.newline_not_mem_layout (op : Opcode) : .is '\n' ∉ op.layout := by
  cases op <;> decide

theorem Hex.newline_not_mem_padded (width n : Nat) : '\n' ∉ (Hex.padded width n).toList := by
  intro h
  rw [Hex.toList_padded] at h
  have hdigit := Hex.isDigit_of_mem_paddedDigits h
  revert hdigit
  decide

/-- So the text of a word is one line. -/
theorem Word.newline_not_mem_text (w : UInt16) : '\n' ∉ (Word.text w).toList := by
  intro h
  cases hw : Instruction.ofWord? w with
  | some i =>
    rw [Word.text_of_some hw, Instruction.toList_text] at h
    rcases Layout.mem_write h with hliteral | hdigit
    · exact i.opcode.newline_not_mem_layout hliteral
    · revert hdigit
      decide
  | none =>
    rw [Word.text_of_none hw, String.toList_append, String.toList_append] at h
    rcases List.mem_append.mp h with hname | hrest
    · revert hname
      decide
    · rcases List.mem_append.mp hrest with hblank | hdigit
      · revert hblank
        decide
      · exact Hex.newline_not_mem_padded 4 w.toNat hdigit

theorem Palette.newline_not_mem_render (w : UInt16) : '\n' ∉ (coloured.render w).toList := by
  have hstyle : '\n' ∉ (coloured.style w).opening.toList ∧ '\n' ∉ (coloured.style w).closing.toList := by
    unfold style
    split <;> decide
  rw [render, Style.paint, String.toList_append, String.toList_append, List.mem_append, List.mem_append]
  rintro ((hopening | htext) | hclosing)
  · exact hstyle.1 hopening
  · exact Word.newline_not_mem_text w htext
  · exact hstyle.2 hclosing

/-- A line ends once. -/
theorem count_newline_listingLine (address : Nat) (w : UInt16) :
    (listingLine address w).toList.count '\n' = 1 := by
  have haddress := List.count_eq_zero_of_not_mem (Hex.newline_not_mem_padded 3 address)
  have htext := List.count_eq_zero_of_not_mem (Palette.newline_not_mem_render w)
  have hword := List.count_eq_zero_of_not_mem (Hex.newline_not_mem_padded 4 w.toNat)
  simp only [listingLine, Style.paint, String.toList_append, List.count_append, haddress, htext, hword]
  decide

/-- Lines are counted by their line breaks. -/
theorem count_newline_join {lines : List String} (h : ∀ l ∈ lines, l.toList.count '\n' = 1) :
    (String.join lines).toList.count '\n' = lines.length := by
  induction lines with
  | nil => rfl
  | cons l lines ih =>
    have hfirst := h l (List.mem_cons_self ..)
    have hothers := ih fun other hother => h other (List.mem_cons_of_mem _ hother)
    rw [String.join_cons, String.toList_append, List.count_append, hfirst, hothers, List.length_cons,
      Nat.add_comm]

/-! ## Addresses -/

namespace Checked

/-- The address of a line, computed in a word of 64 bits. -/
def lineAddress (origin offset k : Nat) : Except Trap Nat := do
  let start ← sum UInt64.size origin offset
  let behind ← product UInt64.size 2 k
  sum UInt64.size start behind

/-- The listing of a program, with its addresses computed so. -/
def listing (origin offset : Nat) (program : List UInt8) : Except Trap (List String) :=
  (wordsOf (program.drop offset)).zipIdx.mapM fun (w, k) => do
    let address ← lineAddress origin offset k
    return listingLine address w

/-- The address of a line does not overflow if the last one does not. -/
theorem lineAddress_ok {origin offset k : Nat} (h : origin + offset + 2 * k < UInt64.size) :
    lineAddress origin offset k = .ok (origin + offset + 2 * k) := by
  rw [lineAddress, sum_ok (by omega), ok_bind, product_ok (by omega), ok_bind, sum_ok h]

/-- If every item of a list passes its check, the list does. -/
theorem mapM_ok {α β : Type} {f : α → Except Trap β} {g : α → β} {l : List α}
    (h : ∀ a ∈ l, f a = .ok (g a)) : l.mapM f = .ok (l.map g) := by
  induction l with
  | nil => rfl
  | cons a l ih =>
    have hothers := ih fun other hother => h other (List.mem_cons_of_mem _ hother)
    rw [List.mapM_cons, h a (List.mem_cons_self ..), ok_bind, hothers]
    rfl

/-- **No address overflows**, for a program of any length that a memory of 64 bits can hold. -/
theorem listing_ok {origin offset : Nat} {program : List UInt8} (horigin : origin < UInt16.size)
    (hlength : program.length ≤ UInt64.size - UInt16.size) :
    listing origin offset program = .ok (Chip8.listing origin offset program) := by
  have hsizes : UInt16.size < UInt64.size := by decide
  rw [listing, mapM_ok (g := fun (w, k) => listingLine (origin + offset + 2 * k) w)]
  · rw [Chip8.listing, List.mapIdx_eq_zipIdx_map]
  · rintro ⟨w, k⟩ hmem
    -- The word is there, so its two bytes lie inside the program.
    have hk : k < (program.length - offset) / 2 := by
      have hlt := List.snd_lt_of_mem_zipIdx hmem
      rwa [Nat.add_zero, length_wordsOf, List.length_drop] at hlt
    have haddress : origin + offset + 2 * k < UInt64.size := by omega
    show (lineAddress origin offset k >>= fun address => pure (listingLine address w)) = _
    rw [lineAddress_ok haddress]
    rfl

end Checked

/-! ## The lister -/

namespace CommandLine.Lister

/-- A right command line and a file that can be read come to a listing. -/
theorem run_eq {read : ReadFile} {args : List String} {s : Settings} {file : String}
    {program : List UInt8} (hargs : command.read args = .ok ⟨s, some file⟩) (hhelp : s.help = false)
    (hfile : read file = .ok program) :
    run read args = ⟨0, String.join (listing s.origin s.offset program), ""⟩ := by
  simp only [run, withSettings, hargs, hhelp, hfile, Bool.false_eq_true, if_false]

/-- **The listing says what the machine fetches.**  Take a command line that names a file, with whatever
offset and load address, and let the file be whatever program.
  * What is printed are as many lines as there are complete words behind the offset, none if the offset
    is past the end.  None of their addresses overflows, if the program can be held in memory at all.
  * The program is taken to stand at 0x200, or at the load address if that is not zero.
  * Line k shows the address of that place, plus the offset and twice k, then the text of the word whose
    two bytes stand there in the program, and its digits.  Another place changes the address only.
  * That text is green if a machine, whichever it is, knows the word, and in no other case.
  * If the program fits, the word is the one at 0x200, the offset and twice k in the memory of a machine
    that has just loaded it, and a traced step that fetches there writes down this word, with the same
    text and at 0x200 with the same address. -/
theorem listed_as_fetched (read : ReadFile) {args : List String} {s : Settings} {file : String}
    {program : List UInt8} (hargs : command.read args = .ok ⟨s, some file⟩) (hhelp : s.help = false)
    (hfile : read file = .ok program) :
    let lines := listing s.origin s.offset program
    let count := (program.length - s.offset) / 2
    run read args = ⟨0, String.join lines, ""⟩ ∧ lines.length = count
    ∧ (String.join lines).toList.count '\n' = count
    ∧ (program.length ≤ UInt64.size - UInt16.size →
        Checked.listing s.origin s.offset program = .ok lines)
    ∧ (s.loadAddress = 0 → s.origin = 0x200) ∧ (s.loadAddress ≠ 0 → s.origin = s.loadAddress)
    ∧ ∀ k < count, ∃ high low, program[s.offset + 2 * k]? = some high
      ∧ program[s.offset + 2 * k + 1]? = some low
      ∧ let w := Word.ofBytes high low
        let text := Palette.coloured.render w
        (∀ origin, (listing origin s.offset program)[k]? = some
          (Hex.padded 3 (origin + s.offset + 2 * k) ++ ": " ++ text ++ " "
            ++ Style.dim.paint (Hex.padded 4 w.toNat) ++ "\n"))
        ∧ (∀ (ρ : Type) [ByteSource ρ] (m : Machine ρ),
          Palette.coloured.style w = .green ↔ (m.executeWord w).Known)
        ∧ ∀ (ρ : Type) [ByteSource ρ] (random : ρ), program.length ≤ Region.programLength →
          ∃ n, (Machine.powerOn random).load program = .done n
            ∧ n.memory.word (0x200 + s.offset + 2 * k) = .ok w
            ∧ ∀ l : Machine ρ, l.memory = n.memory → l.switches = ⟨true, false⟩ →
              l.pc.toNat = 0x200 + s.offset + 2 * k →
              l.step.state.trace = l.trace.push ⟨l.cycle, l.pc, w⟩
              ∧ (TraceLine.mk l.cycle l.pc w).text
                = Style.dim.paint (Column.right 3 (Nat.repr l.cycle.toNat)) ++ " "
                  ++ Hex.padded 3 (0x200 + s.offset + 2 * k) ++ ": " ++ Column.left 36 text
                  ++ "\n" := by
  intro lines count
  have hlength : lines.length = count := length_listing s.origin s.offset program
  have hends : ∀ line ∈ lines, line.toList.count '\n' = 1 := by
    intro line hline
    obtain ⟨k, hk, rfl⟩ := List.mem_mapIdx.mp hline
    exact count_newline_listingLine _ _
  refine ⟨run_eq hargs hhelp hfile, hlength, (count_newline_join hends).trans hlength,
    Checked.listing_ok (fits_of_read hargs).origin_lt, fun h => if_pos h, fun h => if_neg h, ?_⟩
  intro k hk
  have hin : k < (wordsOf (program.drop s.offset)).length := by
    rwa [length_wordsOf, List.length_drop]
  have hword := List.getElem?_eq_getElem hin
  obtain ⟨high, low, hhigh, hlow, hpair⟩ := getElem?_wordsOf hword
  rw [List.getElem?_drop] at hhigh hlow
  rw [← hpair] at hword
  refine ⟨high, low, hhigh, by rwa [Nat.add_assoc], fun origin => getElem?_listing hword origin,
    fun ρ _ m => m.style_eq_green_iff, ?_⟩
  intro ρ _ random hfits
  obtain ⟨memory, -, hload⟩ := Machine.load_powerOn random program hfits
  have hfetched := Machine.word_of_listed hword hload
  refine ⟨_, hload, hfetched, ?_⟩
  intro l hmemory hswitches hpc
  constructor
  · refine Machine.trace_step hswitches ?_
    rw [Machine.fetch, hmemory, hpc]
    exact hfetched
  · rw [← hpc]
    rfl

/-- A program of four bytes, listed from its second on — one word, which is an instruction although the
program would never come to it, and an odd byte that is left out. -/
theorem listed_as_fetched_odd_offset :
    let program : List UInt8 := [0x12, 0x00, 0xe0, 0xff]
    let read : ReadFile := fun _ => .ok program
    let args := ["rom.ch8", "--offset=1"]
    command.read args = .ok ⟨⟨false, 0, 1⟩, some "rom.ch8"⟩
    ∧ run read args = ⟨0, "201: \x1b[32mcls    \x1b[0m \x1b[90m00e0\x1b[39m\n", ""⟩
    ∧ program.length ≤ Region.programLength
    ∧ Checked.listing 0x200 1 program = .ok (listing 0x200 1 program)
    ∧ ∃ n, (Machine.powerOn (Stepper.mk 0 1)).load program = .done n
      ∧ n.memory.word 0x201 = .ok 0x00e0
      ∧ Palette.coloured.style 0x00e0 = .green ∧ (n.executeWord 0x00e0).Known := by
  intro program read args
  have hargs : command.read args = .ok ⟨⟨false, 0, 1⟩, some "rom.ch8"⟩ := rfl
  have hfits : program.length ≤ Region.programLength := by decide
  obtain ⟨hrun, -, -, hchecked, -, -, hlines⟩ := listed_as_fetched read hargs rfl rfl
  obtain ⟨high, low, hhigh, hlow, -, hgreen, hfetched⟩ := hlines 0 (by decide)
  obtain rfl : 0x00 = high := Option.some.inj hhigh
  obtain rfl : 0xe0 = low := Option.some.inj hlow
  obtain ⟨n, hload, hword, -⟩ := hfetched Stepper (Stepper.mk 0 1) hfits
  have hstyle : Palette.coloured.style 0x00e0 = .green := by decide
  refine ⟨hargs, hrun.trans (by decide), hfits, hchecked (by decide), n, hload, hword, hstyle, ?_⟩
  exact (hgreen Stepper n).mp hstyle

end CommandLine.Lister

end Chip8
