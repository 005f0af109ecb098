/-
  No check is ever tripped.

  `Checked` is the machine with every check spelled out.  This file proves that on a machine of the right
  size no check trips, so that the checked machine ends where `Machine` says:
    1. **Drawing.**  The loops over the bits and the rows leave off at an edge, `Screen.plot` takes a list
       of cells that was cut at the edge beforehand.  A loop that stands at bit `k` has the cells from
       `k` on before it (`drawBits_range'`), and likewise for rows (`drawRows_zipIdx`).
    2. **Instructions.**  The register numbers of a decoded word are below sixteen, I and the program
       counter below 2 ^ 16, so every sum has room to spare (`perform_ok`).
    3. **Operations.**  Only the cycle count is not bounded by its own type — a step needs it to be
       below the largest word (`step_ok`), and a row of steps needs that before each of them.
-/
import Chip8.Proofs.Atomicity
import Chip8.Proofs.Checked

namespace Chip8.Checked

variable {α β ρ : Type}

/-! ## Checks that hold -/

/-- A check that passes is followed by what comes next. -/
theorem ok_bind (a : α) (f : α → Except Trap β) : (Except.ok a >>= f) = f a := rfl

/-- A sum that stays below the size of its type is the sum. -/
theorem sum_ok {size a b : Nat} (h : a + b < size) : sum size a b = .ok (a + b) := if_pos h

theorem product_ok {size a b : Nat} (h : a * b < size) : product size a b = .ok (a * b) := if_pos h

theorem difference_ok {a b : Nat} (h : b ≤ a) : difference a b = .ok (a - b) := if_pos h

theorem shifted_ok {bits a k : Nat} (h : k < bits) : shifted bits a k = .ok (a >>> k) := if_pos h

/-- An index below the size finds its item. -/
theorem item_ok {row : Array α} {k : Nat} (h : k < row.size) : item row k = .ok row[k] := by
  unfold item
  rw [Array.getElem?_eq_getElem h]

/-- A range that is in order and ends inside is the part between its ends. -/
theorem part_ok {row : List α} {start stop : Nat} (h : start ≤ stop ∧ stop ≤ row.length) :
    part row start stop = .ok ((row.drop start).take (stop - start)) :=
  if_pos h

/-- A block that is copied is as long as the place it goes to. -/
theorem fitted_ok {count : Nat} {block : List α} (h : block.length = count) :
    fitted count block = .ok block :=
  if_pos h

/-- A number of seventeen bits, and whatever it is the sum of, stays far inside a 64-bit word. -/
theorem lt_size64 {a : Nat} (h : a ≤ 0x20000) : a < UInt64.size := Nat.lt_of_le_of_lt h (by decide)

/-- Sums of addresses and lengths are far below 2 ^ 64. -/
theorem sum64_ok {a b : Nat} (h : a + b ≤ 0x20000) : sum UInt64.size a b = .ok (a + b) :=
  sum_ok (lt_size64 h)

/-- An address has sixteen bits, so it leaves room for an offset of twelve. -/
theorem address_ok (a : UInt16) {k : Nat} (hk : k ≤ 4096) :
    sum UInt64.size a.toNat k = .ok (a.toNat + k) := by
  have ha := a.toNat_lt
  exact sum64_ok (by omega)

/-! ## Pixels -/

section Pixels

variable {s : Screen} {x y : Nat}

/-- A pixel on the screen has its place, without an overflow on the way. -/
theorem place_ok (hx : x < Screen.width) (hy : y < Screen.height) :
    place x y = .ok (y * Screen.width + x) := by
  have hplace := Screen.place_lt hx hy
  simp only [Screen.width, Screen.height] at hplace
  have habove : y * Screen.width ≤ 0x20000 := by
    simp only [Screen.width]
    omega
  have hsum : y * Screen.width + x ≤ 0x20000 := by
    simp only [Screen.width]
    omega
  unfold place
  rw [if_pos ⟨hx, hy⟩, product_ok (lt_size64 habove), ok_bind, sum64_ok hsum]

/-- So it is read and written without a trap. -/
theorem getPixel_ok (hx : x < Screen.width) (hy : y < Screen.height)
    (hk : y * Screen.width + x < s.pixels.size) :
    getPixel s x y = .ok s.pixels[y * Screen.width + x] := by
  unfold getPixel
  rw [place_ok hx hy, ok_bind, item_ok hk]

theorem setPixel_ok (hx : x < Screen.width) (hy : y < Screen.height)
    (hk : y * Screen.width + x < s.pixels.size) (lit : Bool) :
    setPixel s x y lit = .ok ⟨s.pixels.set (y * Screen.width + x) lit hk⟩ := by
  unfold setPixel
  rw [place_ok hx hy, ok_bind]
  exact dif_pos hk

end Pixels

/-! ## Drawing -/

/-- Looking at a bit through a mask. -/
theorem mask_ne_zero (n : Nat) {bit : Nat} (h : bit < 8) :
    ((n &&& 0x80 >>> bit) != 0) = n.testBit (7 - bit) := by
  -- The mask is the one bit that is looked for, and the value is compared with it bit by bit.
  have hmask : ∀ j, (0x80 >>> bit).testBit j = decide (7 - bit = j) := by
    intro j
    rw [Nat.testBit_shiftRight]
    show (2 ^ 7).testBit (bit + j) = _
    rw [Nat.testBit_two_pow]
    exact decide_eq_decide.mpr (by omega)
  by_cases hbit : n.testBit (7 - bit) = true
  · have hone : (n &&& 0x80 >>> bit).testBit (7 - bit) = true := by
      rw [Nat.testBit_and, hbit, hmask, decide_eq_true rfl]
      rfl
    have hne : n &&& 0x80 >>> bit ≠ 0 := by
      intro hzero
      rw [hzero, Nat.zero_testBit] at hone
      cases hone
    rw [hbit]
    exact bne_iff_ne.mpr hne
  · have hzero : n &&& 0x80 >>> bit = 0 := by
      refine Nat.eq_of_testBit_eq fun j => ?_
      rw [Nat.testBit_and, Nat.zero_testBit, hmask]
      by_cases hj : 7 - bit = j
      · rw [← hj, Bool.eq_false_iff.mpr hbit]
        rfl
      · rw [decide_eq_false hj, Bool.and_false]
    rw [hzero, Bool.eq_false_iff.mpr hbit]
    rfl

/-- **The loop over the bits plots the cells of one row.**  Standing at bit `k`, it has before it the
cells from `k` up to the right edge. -/
theorem drawBits_range' {left y : Nat} (b : UInt8) (hy : y < Screen.height) {k n : Nat}
    (hkn : k + n = 8) (hleft : left + k < Screen.width ∨ n = 0) {s s' : Screen} {hit hit' : Bool}
    (hs : s.pixels.size = Screen.width * Screen.height)
    (hplot : Screen.plot ((List.range' k (min 8 (Screen.width - left) - k)).map fun bit =>
      ⟨left + bit, y, b.toNat.testBit (7 - bit)⟩) s hit = (.ok hit', s')) :
    drawBits left y b (List.range' k n) s hit = .ok (s', hit') := by
  induction n generalizing k s hit with
  | zero =>
    have hnone : min 8 (Screen.width - left) - k = 0 := by omega
    rw [hnone] at hplot
    cases hplot
    rfl
  | succ n ih =>
    have hx : left + k < Screen.width := hleft.resolve_right (Nat.succ_ne_zero n)
    have hk : y * Screen.width + (left + k) < s.pixels.size := hs ▸ Screen.place_lt hx hy
    have hsum : left + k ≤ 0x20000 := by
      simp only [Screen.width] at hx
      omega
    have hcount : min 8 (Screen.width - left) - k = min 8 (Screen.width - left) - (k + 1) + 1 := by
      omega
    have hcell : Screen.Cell.OnScreen ⟨left + k, y, b.toNat.testBit (7 - k)⟩ := ⟨hx, hy⟩
    rw [hcount, List.range'_succ, List.map_cons, Screen.plot_cons _ _ hcell hk] at hplot
    rw [List.range'_succ, drawBits, sum64_ok hsum, ok_bind, shifted_ok (by omega), ok_bind,
      getPixel_ok hx hy hk, ok_bind, setPixel_ok hx hy hk, ok_bind,
      difference_ok (by decide), ok_bind, mask_ne_zero _ (by omega)]
    by_cases hedge : left + k = Screen.width - 1
    · -- The loop leaves off here, and the row of cells has been cut here.
      have hnone : min 8 (Screen.width - left) - (k + 1) = 0 := by omega
      rw [hnone] at hplot
      rw [if_pos hedge]
      cases hplot
      rfl
    · rw [if_neg hedge]
      exact ih (by omega) (by omega) ((Array.size_set hk).trans hs) hplot

/-- **The loop over the rows plots the cells of the sprite.** -/
theorem drawRows_zipIdx {left top : Nat} (hleft : left < Screen.width) {sprite : List UInt8}
    {k : Nat} (hrows : top + k + sprite.length ≤ Screen.height) {s s' : Screen} {hit hit' : Bool}
    (hs : s.pixels.size = Screen.width * Screen.height)
    (hplot : Screen.plot (Screen.spriteCells left (top + k) sprite) s hit = (.ok hit', s')) :
    drawRows left top (sprite.zipIdx k) s hit = .ok (s', hit') := by
  induction sprite generalizing k s hit with
  | nil =>
    cases hplot
    rfl
  | cons b sprite ih =>
    rw [List.length_cons] at hrows
    have hy : top + k < Screen.height := by omega
    have hsum : top + k ≤ 0x20000 := by
      simp only [Screen.height] at hy
      omega
    obtain ⟨hit₁, s₁, hrow⟩ :=
      Screen.plot_onScreen hit hs (Screen.byteCells_onScreen hleft hy b)
    have hs₁ := Screen.size_plot (Screen.byteCells left (top + k) b) s hit
    rw [hrow, hs] at hs₁
    rw [Screen.spriteCells_cons, Screen.plot_append, hrow] at hplot
    rw [Screen.byteCells, List.range_eq_range'] at hrow
    have hbits := drawBits_range' b hy (k := 0) (n := 8) rfl (.inl hleft) hs hrow
    rw [List.zipIdx_cons, drawRows, sum64_ok hsum, ok_bind, List.range_eq_range', hbits, ok_bind]
    dsimp only
    rw [difference_ok (by decide), ok_bind]
    by_cases hedge : top + k = Screen.height - 1
    · -- No row is left, since the sprite was cut at the lower edge.
      have hnone : sprite = [] := List.eq_nil_of_length_eq_zero (by omega)
      rw [if_pos hedge]
      rw [hnone] at hplot
      cases hplot
      rfl
    · rw [if_neg hedge]
      exact ih (by omega) hs₁ hplot

/-! ## Loading and fetching -/

/-- A block that was put into memory is read back from there. -/
theorem part_splice {m : Memory} {start : Nat} {block : List UInt8}
    (h : start + block.length ≤ m.length) :
    part (m.splice start block).bytes.toList start (start + block.length) = .ok block := by
  have hlength : (m.splice start block).bytes.toList.length = m.length := Memory.length_splice ..
  have hread := (Array.toList_extract ..).symm.trans (Memory.extract_splice m h)
  rw [part_ok (by omega)]
  exact congrArg Except.ok hread

/-- Clearing the program memory and copying a program in comes to filling the program up with
zeros — and it reads back as it was loaded. -/
theorem load_ok {m : Machine ρ} (hm : m.Sized) (program : List UInt8) :
    load m program = .ok (m.load program) := by
  unfold load Machine.load Memory.load
  by_cases hfits : Region.programLength < program.length
  · rw [if_pos hfits, if_pos hfits]
  · have hlength : m.memory.bytes.toList.length = memorySize := hm.memory
    have hfull : ¬ m.memory.length < memorySize := by
      rw [hm.memory]
      exact Nat.lt_irrefl _
    have hroom : programStart + program.length ≤ memorySize := by
      simp only [Region.programLength, Region.stop, Region.start, programStart, memorySize] at *
      omega
    have hsum : programStart + program.length ≤ 0x20000 := by
      simp only [memorySize] at hroom
      omega
    have hspace : ((m.memory.bytes.toList.drop programStart).take
        (memorySize - programStart)).length = Region.programLength := by
      rw [List.length_take, List.length_drop, hlength]
      rfl
    have hfront : program.length = ((((m.memory.bytes.toList.drop programStart).take
        (memorySize - programStart)).drop 0).take (program.length - 0)).length := by
      rw [List.length_take, List.drop_zero, hspace]
      omega
    have hloaded : programStart + program.length ≤ (m.memory.splice programStart
        (List.replicate Region.programLength 0)).length := by
      rw [Memory.length_splice, hm.memory]
      exact hroom
    have hzeros : program.length ≤ (List.replicate Region.programLength (0 : UInt8)).length := by
      rw [List.length_replicate]
      omega
    rw [if_neg hfits, if_neg hfits, if_neg hfull, part_ok ⟨by decide, Nat.le_of_eq hlength.symm⟩,
      ok_bind]
    dsimp only
    -- The range to clear, the range to copy to, the length of the copy, its end, and reading it back.
    rw [hspace, part_ok ⟨Nat.zero_le _, by omega⟩, ok_bind, fitted_ok hfront, ok_bind,
      sum64_ok hsum, ok_bind, part_splice hloaded, ok_bind, if_pos rfl]
    rw [Memory.splice_splice _ _ hzeros, List.drop_replicate]
    rfl

/-- The address of the low byte does not overflow, for it is computed in the width of an index. -/
theorem fetch_ok (m : Machine ρ) : fetch m = .ok m.fetch := by
  unfold fetch Machine.fetch Memory.word
  cases m.memory.get m.pc.toNat with
  | error e => rfl
  | ok high =>
    dsimp only
    rw [address_ok m.pc (by decide), ok_bind]
    cases m.memory.get (m.pc.toNat + 1) with
    | error e => rfl
    | ok low => rfl

/-! ## Instructions -/

/-- An outcome that is clean is no trap. -/
theorem untrapped_ok {m : Machine ρ} {o : Outcome (Machine ρ)} (h : o.Clean m) :
    untrapped o = .ok o := by
  cases o with
  | done n => rfl
  | failed fault n =>
    obtain ⟨⟨e, rfl⟩, -⟩ := h fault n rfl
    rfl

/-- There are sixteen registers, and no register number is above fifteen. -/
theorem register_ok (m : Machine ρ) (x : Fin 16) : item m.v.toArray x = .ok (m.v.get x) :=
  item_ok (m.v.size_toArray.symm ▸ x.isLt)

/-- A call writes the frame that there is room for. -/
theorem call_ok {m : Machine ρ} (hm : m.Sized) (a : UInt16) : call m a = .ok (m.call a) := by
  have hdepth := hm.stack
  unfold call Machine.call CallStack.push
  by_cases hroom : m.stack.depth < stackDepth
  · have hsum : m.stack.depth + 1 ≤ 0x20000 := by
      simp only [stackDepth] at hdepth
      omega
    rw [dif_pos hroom, dif_pos hroom, sum64_ok hsum]
    rfl
  · rw [dif_neg hroom, dif_neg hroom]

/-- **Drawing trips no check**: the rows that are read are those on the screen, so every pixel is found. -/
theorem draw_ok {m : Machine ρ} (hm : m.Sized) (x y : Fin 16) (rows : UInt8) :
    draw m x y rows = .ok (m.drawSprite x y rows) := by
  have hleft : (m.v.get x).toNat % Screen.width < Screen.width := Nat.mod_lt _ (by decide)
  have htop : (m.v.get y).toNat % Screen.height < Screen.height := Nat.mod_lt _ (by decide)
  have hroom : min rows.toNat (Screen.height - (m.v.get y).toNat % Screen.height) ≤ 4096 := by
    simp only [Screen.height]
    omega
  unfold draw
  rw [register_ok, ok_bind, register_ok, ok_bind]
  dsimp only
  rw [difference_ok (Nat.le_of_lt htop), ok_bind, address_ok _ hroom, ok_bind]
  cases hslice : m.memory.slice m.index.toNat (m.index.toNat
      + min rows.toNat (Screen.height - (m.v.get y).toNat % Screen.height)) with
  | error e =>
    unfold Machine.drawSprite
    simp only [hslice]
    rfl
  | ok sprite =>
    obtain ⟨hit, screen, hplot, hdraw⟩ := Machine.drawSprite_of_slice hm x y rows hslice
    have hlength := Memory.length_of_slice_eq_ok hslice
    have hrows := drawRows_zipIdx hleft (k := 0)
      (show (m.v.get y).toNat % Screen.height + 0 + sprite.length ≤ Screen.height by omega) hm.screen
      hplot
    dsimp only
    rw [hrows, ok_bind, hdraw]
    rfl

/-- The largest glyph address, `0x50 + 5 * 255`, is far below 2 ^ 16. -/
theorem pointGlyph_ok (m : Machine ρ) (x : Fin 16) : pointGlyph m x
    = .ok (.done { m with index := UInt16.ofNat (fontStart + glyphSize * (m.v.get x).toNat) }) := by
  have hvx := (m.v.get x).toNat_lt
  have hproduct : glyphSize * (m.v.get x).toNat < UInt16.size := by
    simp only [glyphSize, UInt16.size]
    omega
  have hsum : fontStart + glyphSize * (m.v.get x).toNat < UInt16.size := by
    simp only [fontStart, glyphSize, UInt16.size]
    omega
  unfold pointGlyph
  rw [register_ok, ok_bind, product_ok hproduct, ok_bind, sum_ok hsum]
  rfl

/-- A block is as long as the place that was checked for it. -/
theorem storeUpTo_ok (m : Machine ρ) {stop : Nat} {block : List UInt8}
    (hstop : stop = m.index.toNat + block.length) :
    storeUpTo m stop block = .ok (m.storeBlock block) := by
  subst hstop
  unfold storeUpTo Machine.storeBlock
  cases m.memory.check m.index.toNat (m.index.toNat + block.length) with
  | error e => rfl
  | ok _ =>
    dsimp only
    rw [difference_ok (Nat.le_add_right ..), ok_bind, fitted_ok (Nat.add_sub_cancel_left ..).symm]
    rfl

theorem storeDecimal_ok (m : Machine ρ) (x : Fin 16) :
    storeDecimal m x = .ok (m.storeBlock (Machine.decimalDigits (m.v.get x))) := by
  unfold storeDecimal
  rw [register_ok, ok_bind, address_ok _ (by decide), ok_bind]
  exact storeUpTo_ok m rfl

/-- The end of a block of registers, counted from I, is no larger than an index can be. -/
theorem afterRegisters_ok (m : Machine ρ) (x : Fin 16) :
    afterRegisters m x = .ok (m.index.toNat + x + 1) := by
  have hx := x.isLt
  have hindex := m.index.toNat_lt
  unfold afterRegisters
  rw [sum64_ok (by omega), ok_bind, sum64_ok (by omega)]

/-- The registers to be copied are a part of the sixteen. -/
theorem registersUpTo_ok (m : Machine ρ) (x : Fin 16) :
    registersUpTo m x = .ok (m.registersUpTo x) := by
  have hx := x.isLt
  have hlength := m.v.length_toList
  unfold registersUpTo
  rw [sum64_ok (by omega), ok_bind, part_ok (by omega)]
  rfl

theorem storeRegisters_ok (m : Machine ρ) (x : Fin 16) :
    storeRegisters m x = .ok (m.storeBlock (m.registersUpTo x)) := by
  unfold storeRegisters
  rw [afterRegisters_ok, ok_bind, registersUpTo_ok, ok_bind]
  exact storeUpTo_ok m (congrArg (m.index.toNat + ·) (m.length_registersUpTo x).symm)

/-- As many bytes are loaded as there are registers to load them into. -/
theorem loadRegisters_ok (m : Machine ρ) (x : Fin 16) :
    loadRegisters m x = .ok (m.loadRegisters x) := by
  unfold loadRegisters Machine.loadRegisters
  rw [afterRegisters_ok, ok_bind]
  cases hslice : m.memory.slice m.index.toNat (m.index.toNat + x + 1) with
  | error e => rfl
  | ok values =>
    have hvalues : values.length = x + 1 := Memory.length_of_slice_eq_ok hslice
    dsimp only
    rw [registersUpTo_ok, ok_bind, fitted_ok (hvalues.trans (m.length_registersUpTo x).symm)]
    rfl

variable [ByteSource ρ]

/-- **No decoded instruction trips a check.** -/
theorem perform_ok {m : Machine ρ} (hm : m.Sized) {i : Instruction} (hi : i.InRange) :
    perform m i = .ok (m.perform i) := by
  have huntrapped := untrapped_ok (Machine.clean_perform hm hi)
  obtain ⟨hx, hy⟩ := hi
  cases i with
  | call a => exact call_ok hm a
  | draw x y rows =>
    rw [perform, Machine.perform, Machine.withRegister_of_lt (r := x) hx,
      Machine.withRegister_of_lt (r := y) hy]
    exact draw_ok hm ⟨x, hx⟩ ⟨y, hy⟩ rows
  | pointGlyph x =>
    rw [perform, Machine.perform, Machine.withRegister_of_lt (r := x) hx]
    exact pointGlyph_ok m ⟨x, hx⟩
  | storeDecimal x =>
    rw [perform, Machine.perform, Machine.withRegister_of_lt (r := x) hx]
    exact storeDecimal_ok m ⟨x, hx⟩
  | storeRegisters x =>
    rw [perform, Machine.perform, Machine.withRegister_of_lt (r := x) hx]
    exact storeRegisters_ok m ⟨x, hx⟩
  | loadRegisters x =>
    rw [perform, Machine.perform, Machine.withRegister_of_lt (r := x) hx]
    exact loadRegisters_ok m ⟨x, hx⟩
  | _ => exact huntrapped

/-- A word trips no check, for the instruction it stands for has registers as operands. -/
theorem executeWord_ok {m : Machine ρ} (hm : m.Sized) (w : UInt16) :
    executeWord m w = .ok (m.executeWord w) := by
  unfold executeWord Machine.executeWord
  cases hw : Instruction.ofWord? w with
  | some i => exact perform_ok hm (Instruction.inRange_of_ofWord? hw)
  | none => rfl

/-! ## Operations -/

/-- A step needs room to count it. -/
theorem step_ok {m : Machine ρ} (hm : m.Sized) (hcycle : m.cycle.toNat < UInt64.size - 1) :
    step m = .ok m.step := by
  unfold step Machine.step
  by_cases hpaused : m.switches.paused = true
  · rw [if_pos hpaused, if_pos hpaused]
  · rw [if_neg hpaused, if_neg hpaused, fetch_ok, ok_bind]
    cases m.fetch with
    | error e => rfl
    | ok w =>
      have hcount : UInt64.ofNat (m.cycle.toNat + 1) = m.cycle + 1 := by
        rw [UInt64.ofNat_add, UInt64.ofNat_toNat]
        rfl
      dsimp only
      rw [sum_ok (Nat.add_lt_of_lt_sub hcycle), ok_bind, hcount]
      exact executeWord_ok (Machine.sized_advance hm w) w

/-- Without that room, an instruction that can be fetched overflows the count. -/
theorem step_overflow {m : Machine ρ} (hrun : m.switches.paused = false) {w : UInt16}
    (hfetch : m.fetch = .ok w) (hcycle : m.cycle.toNat = UInt64.size - 1) :
    step m = .error .overflow := by
  have hsum : sum UInt64.size m.cycle.toNat 1 = .error .overflow := by
    rw [hcycle]
    exact if_neg (Nat.lt_irrefl _)
  unfold step
  rw [hrun, if_neg Bool.false_ne_true, fetch_ok, hfetch, ok_bind]
  dsimp only
  rw [hsum]
  rfl

/-- Steps trip no check, as long as each of them can be counted. -/
theorem steps_ok {count : Nat} {m : Machine ρ} (hm : m.Sized)
    (hcycle : ∀ k < count, ∀ n, Machine.steps k m = .done n → n.cycle.toNat < UInt64.size - 1) :
    steps count m = .ok (Machine.steps count m) := by
  induction count generalizing m with
  | zero => rfl
  | succ count ih =>
    have hfirst := hcycle 0 (Nat.succ_pos _) m rfl
    have hsized := Machine.sized_step hm
    rw [steps, step_ok hm hfirst, ok_bind, Machine.steps_succ]
    cases hstep : m.step with
    | failed fault n => rfl
    | done n =>
      rw [hstep] at hsized
      -- What `k` steps lead to from here, `k + 1` lead to from the machine before.
      refine ih hsized fun k hk l hl => hcycle (k + 1) (Nat.succ_lt_succ hk) l ?_
      rw [Machine.steps_succ, hstep]
      exact hl

end Chip8.Checked

namespace Chip8.Machine

variable {ρ : Type} [ByteSource ρ]

/-- Is there room to count the steps of an operation — does the cycle count stay below the largest word
before each of them? -/
def CountsFor (m : Machine ρ) (op : Operation) : Prop :=
  ∀ k < op.stepCount, ∀ n, steps k m = .done n → n.cycle.toNat < UInt64.size - 1

/-- On a machine of the right size no operation trips a check. -/
theorem checked_apply {m : Machine ρ} (hm : m.Sized) {op : Operation} (hcount : m.CountsFor op) :
    Checked.apply m op = .ok (op.apply m) := by
  cases op with
  | load program => exact Checked.load_ok hm program
  | setRegister r value => exact Checked.untrapped_ok (clean_setRegister m r value)
  | executeWord w => exact Checked.executeWord_ok hm w
  | step => exact Checked.step_ok hm (hcount 0 Nat.one_pos m rfl)
  | steps n => exact Checked.steps_ok hm hcount
  | frame pace look seen =>
    have hsteps : Checked.steps pace.stepsPerFrame m = .ok (steps pace.stepsPerFrame m) :=
      Checked.steps_ok hm hcount
    rw [Checked.apply, Operation.apply_frame, hsteps, Checked.ok_bind]
    cases steps pace.stepsPerFrame m with
    | done n => rfl
    | failed fault n => rfl
  | _ => rfl

/-- **A reachable machine is safe.**  Its memory, screen and stack have their sizes; and whatever is
done to it next, while there are cycles left to count, trips no check and is done or ends in an
error. -/
theorem reachable_safe {m : Machine ρ} (hm : m.Reachable) :
    m.memory.length = 4096 ∧ m.screen.pixels.size = 2048 ∧ m.stack.depth ≤ 16
    ∧ ∀ op : Operation, m.CountsFor op → Checked.apply m op = .ok (op.apply m)
      ∧ ((∃ n, op.apply m = .done n) ∨ ∃ e n, op.apply m = .failed (.error e) n) := by
  have hsized := hm.sized
  refine ⟨hsized.memory, hsized.screen, hsized.stack, fun op hcount => ⟨?_, ?_⟩⟩
  · exact checked_apply hsized hcount
  · cases hend : op.apply m with
    | done n => exact .inl ⟨n, rfl⟩
    | failed fault n =>
      obtain ⟨⟨e, rfl⟩, -⟩ := failed_apply hsized hend
      exact .inr ⟨e, n, rfl⟩

/-- The lower right corner, with I at the last byte — a sprite there has its one visible row read and
its first bit drawn, and the next step finds nothing to execute. -/
theorem reachable_safe_corner :
    let m := after [.setRegister 0 63, .setRegister 1 31, .executeWord 0xafff]
      (powerOn (Stepper.mk 0 1))
    m.Reachable ∧ m.CountsFor .step ∧ m.CountsFor (.executeWord 0xd01f)
    ∧ Checked.apply m .step = .ok (Operation.step.apply m)
    ∧ Checked.apply m (.executeWord 0xd01f) = .ok ((Operation.executeWord 0xd01f).apply m) := by
  intro m
  have hreach : m.Reachable := ⟨_, _, rfl⟩
  have hstep : m.CountsFor .step := by
    intro k hk n hn
    obtain rfl : k = 0 := Nat.lt_one_iff.mp hk
    cases hn
    have hcycle : m.cycle = 0 := rfl
    rw [hcycle]
    decide
  have hdraw : m.CountsFor (.executeWord 0xd01f) := fun k hk => absurd hk (Nat.not_lt_zero k)
  obtain ⟨-, -, -, hsafe⟩ := reachable_safe hreach
  exact ⟨hreach, hstep, hdraw, (hsafe .step hstep).1, (hsafe (.executeWord 0xd01f) hdraw).1⟩

end Chip8.Machine
