/-
  Sprites.

  A sprite is drawn by going over the cells it covers, flipping a pixel here and noting a collision there,
  while the screen changes under way.  From outside, one drawing flips a set of pixels all at once: those
  over which the sprite has a set bit (`Stamp.mask`).
  1. **The pixels by their coordinates** (`Screen.lit`).  The place of a pixel in the row tells both its
     coordinates, so setting one pixel leaves all others (`lit_set`), and a full screen is known by its
     pixels (`ext_lit`).
  2. **The crux: no cell is met twice** (`spriteCells_apart`).  So every cell finds its pixel as it was
     before the drawing, and neither the order nor the changes under way matter (`plot_apart`).
  3. **The cells of a sprite are its mask** (`any_lights_spriteCells`, `mask_eq`).  The clipped rows and
     columns are the ones that the mask has off the screen.
  4. What is read is the rows on the screen.  A drawing fails if one of them is not in memory, and names
     it; but one without rows is also refused where I is past the end of memory, although it reads nothing
     there (`refused_rows`).
-/
import Chip8.Proofs.Refusal

namespace Chip8

/-! ## Pixels by their coordinates -/

namespace Screen

variable {s t : Screen} {x y x' y' : Nat}

/-- Is the pixel lit?  One that is not there is not. -/
def lit (s : Screen) (x y : Nat) : Bool := s.pixels[y * width + x]?.getD false

theorem lit_eq_getElem (hk : y * width + x < s.pixels.size) : s.lit x y = s.pixels[y * width + x] := by
  rw [lit, Array.getElem?_eq_getElem hk]
  rfl

/-- On a full screen every pixel can be looked at. -/
theorem get_eq_lit (hs : s.pixels.size = width * height) (hx : x < width) (hy : y < height) :
    s.get x y = .ok (s.lit x y) := by
  have hk : y * width + x < s.pixels.size := hs ▸ place_lt hx hy
  simp only [get, place_onScreen hx hy, lit_eq_getElem hk, Array.getElem?_eq_getElem hk, bind, Except.bind]

/-- The place of a pixel tells its coordinates. -/
theorem place_inj (hx : x < width) (hx' : x' < width)
    (h : y * width + x = y' * width + x') : x = x' ∧ y = y' := by
  simp only [width] at *
  omega

theorem lit_set {b : Bool} (hk : y * width + x < s.pixels.size) (hx : x < width) (hx' : x' < width) :
    lit ⟨s.pixels.set (y * width + x) b hk⟩ x' y' = if x = x' ∧ y = y' then b else s.lit x' y' := by
  show ((s.pixels.set (y * width + x) b hk)[y' * width + x']?).getD false = _
  rw [Array.getElem?_set]
  by_cases h : x = x' ∧ y = y'
  · rw [if_pos h, if_pos (by rw [h.1, h.2])]
    rfl
  · rw [if_neg h, if_neg fun heq => h (place_inj hx hx' heq)]
    rfl

theorem lit_blank (x y : Nat) : blank.lit x y = false := by
  rw [lit, blank, Array.getElem?_replicate]
  split <;> rfl

theorem get_blank (hx : x < width) (hy : y < height) : blank.get x y = .ok false :=
  (get_eq_lit size_blank hx hy).trans (congrArg Except.ok (lit_blank x y))

/-- Full screens that show the same are the same. -/
theorem ext_lit (hs : s.pixels.size = width * height) (ht : t.pixels.size = width * height)
    (h : ∀ x < width, ∀ y < height, s.lit x y = t.lit x y) : s = t := by
  refine congrArg Screen.mk (Array.ext (hs.trans ht.symm) fun k hks hkt => ?_)
  have hplace : k / width * width + k % width = k := by
    rw [Nat.mul_comm]
    exact Nat.div_add_mod k width
  have hx : k % width < width := Nat.mod_lt k (by decide)
  have hy : k / width < height := Nat.div_lt_of_lt_mul (hs ▸ hks)
  have hlit := h _ hx _ hy
  rw [lit_eq_getElem (hplace.symm ▸ hks), lit_eq_getElem (hplace.symm ▸ hkt)] at hlit
  simpa only [hplace] using hlit

/-! ## Cells that are apart -/

/-- Are the cells at two places? -/
def Cell.Apart (c d : Cell) : Prop := ¬ (c.x = d.x ∧ c.y = d.y)

/-- Is this the cell of a pixel, and does it flip it? -/
def Cell.lights (c : Cell) (x y : Nat) : Bool := decide (c.x = x ∧ c.y = y) && c.lit

/-- One cell that is there flips its own pixel, and no other. -/
theorem plot_cons_lit {c : Cell} {cells : List Cell} {hit hit' : Bool}
    (hs : s.pixels.size = width * height) (hc : c.OnScreen)
    (hplot : plot (c :: cells) s hit = (.ok hit', t)) :
    ∃ s₁ : Screen, s₁.pixels.size = width * height
      ∧ (∀ x < width, ∀ y, s₁.lit x y
        = if c.x = x ∧ c.y = y then c.lit ^^ s.lit c.x c.y else s.lit x y)
      ∧ plot cells s₁ (hit || (c.lit && s.lit c.x c.y)) = (.ok hit', t) := by
  have hk : c.y * width + c.x < s.pixels.size := hs ▸ place_lt hc.1 hc.2
  rw [plot_cons cells hit hc hk, ← lit_eq_getElem hk] at hplot
  exact ⟨_, (Array.size_set hk).trans hs, fun x hx y => lit_set hk hc.1 hx, hplot⟩

/-- **Cells that are apart are flipped all at once.**  Each of them finds its pixel as it was. -/
theorem plot_apart {cells : List Cell} {hit hit' : Bool} (hs : s.pixels.size = width * height)
    (hcells : ∀ c ∈ cells, c.OnScreen) (hapart : cells.Pairwise Cell.Apart)
    (hplot : plot cells s hit = (.ok hit', t)) :
    (∀ x < width, ∀ y, t.lit x y = (s.lit x y ^^ cells.any fun c => c.lights x y))
    ∧ (hit' = true ↔ hit = true ∨ ∃ c ∈ cells, c.lit = true ∧ s.lit c.x c.y = true) := by
  induction cells generalizing s hit with
  | nil =>
    obtain ⟨rfl, rfl⟩ : hit = hit' ∧ s = t := by simpa [plot] using hplot
    simp
  | cons c cells ih =>
    have hothersOn : ∀ d ∈ cells, d.OnScreen := fun d hd => hcells d (List.mem_cons_of_mem _ hd)
    obtain ⟨hfirst, hothers⟩ := List.pairwise_cons.mp hapart
    obtain ⟨s₁, hs₁, hflip, hplot₁⟩ := plot_cons_lit hs (hcells c (List.mem_cons_self ..)) hplot
    obtain ⟨hlit, hhit⟩ := ih hs₁ hothersOn hothers hplot₁
    constructor
    · intro x hx y
      rw [hlit x hx y, hflip x hx y, List.any_cons]
      by_cases h : c.x = x ∧ c.y = y
      · -- None of the other cells is at this place.
        have hnone : cells.any (fun d => d.lights x y) = false := by
          refine List.any_eq_false.mpr fun d hd => ?_
          have hne : ¬ (d.x = x ∧ d.y = y) :=
            fun hd' => hfirst d hd ⟨h.1.trans hd'.1.symm, h.2.trans hd'.2.symm⟩
          rw [Cell.lights, decide_eq_false hne]
          exact Bool.false_ne_true
        rw [if_pos h, hnone, Cell.lights, decide_eq_true h, h.1, h.2, Bool.xor_false, Bool.true_and,
          Bool.or_false, Bool.xor_comm]
      · rw [if_neg h, Cell.lights, decide_eq_false h, Bool.false_and, Bool.false_or]
    · have hsame : ∀ d ∈ cells, s₁.lit d.x d.y = s.lit d.x d.y := by
        intro d hd
        rw [hflip d.x (hothersOn d hd).1 d.y, if_neg (hfirst d hd)]
      rw [hhit, Bool.or_eq_true, Bool.and_eq_true, or_assoc]
      constructor
      · rintro (h | h | ⟨d, hd, hdlit, hwas⟩)
        · exact .inl h
        · exact .inr ⟨c, List.mem_cons_self .., h⟩
        · exact .inr ⟨d, List.mem_cons_of_mem _ hd, hdlit, hsame d hd ▸ hwas⟩
      · rintro (h | ⟨d, hd, hdlit, hwas⟩)
        · exact .inl h
        · rcases List.mem_cons.mp hd with rfl | hd
          · exact .inr (.inl ⟨hdlit, hwas⟩)
          · exact .inr (.inr ⟨d, hd, hdlit, (hsame d hd).symm ▸ hwas⟩)

/-! ## The cells of a sprite -/

theorem mem_spriteCells {sprite : List UInt8} {c : Cell} : c ∈ spriteCells x y sprite
    ↔ ∃ line bit b, sprite[line]? = some b ∧ bit < min 8 (width - x)
      ∧ c = ⟨x + bit, y + line, b.toNat.testBit (7 - bit)⟩ := by
  rw [spriteCells, List.mem_flatten]
  constructor
  · rintro ⟨row, hrow, hc⟩
    obtain ⟨line, hline, rfl⟩ := List.mem_mapIdx.mp hrow
    obtain ⟨bit, hbit, rfl⟩ := List.mem_map.mp hc
    exact ⟨line, bit, _, List.getElem?_eq_getElem hline, List.mem_range.mp hbit, rfl⟩
  · rintro ⟨line, bit, b, hb, hbit, rfl⟩
    obtain ⟨hline, rfl⟩ := List.getElem?_eq_some_iff.mp hb
    exact ⟨_, List.mem_mapIdx.mpr ⟨line, hline, rfl⟩,
      List.mem_map.mpr ⟨bit, List.mem_range.mpr hbit, rfl⟩⟩

/-- No cell is met twice. -/
theorem spriteCells_apart (x y : Nat) (sprite : List UInt8) :
    (spriteCells x y sprite).Pairwise Cell.Apart := by
  induction sprite generalizing y with
  | nil => exact List.Pairwise.nil
  | cons b sprite ih =>
    rw [spriteCells_cons]
    refine List.pairwise_append.mpr ⟨?_, ih (y + 1), fun c hc d hd h => ?_⟩
    · refine List.pairwise_map.mpr (List.pairwise_lt_range.imp fun {i j} hij h => ?_)
      have hcolumn : x + i = x + j := h.1
      omega
    · -- The other rows are further down.
      obtain ⟨bit, -, rfl⟩ := List.mem_map.mp hc
      obtain ⟨line, bit', b', -, -, rfl⟩ := mem_spriteCells.mp hd
      have hrow : y = y + 1 + line := h.2
      omega

/-- A sprite flips the pixels under its set bits that are not past the right edge. -/
theorem any_lights_spriteCells {sprite : List UInt8} (hx' : x' < width) :
    (spriteCells x y sprite).any (fun c => c.lights x' y') = true ↔ (x ≤ x' ∧ x' < x + 8 ∧ y ≤ y')
      ∧ ∃ b, sprite[y' - y]? = some b ∧ b.toNat.testBit (7 - (x' - x)) = true := by
  rw [List.any_eq_true]
  constructor
  · rintro ⟨c, hc, hlights⟩
    obtain ⟨line, bit, b, hb, hbit, rfl⟩ := mem_spriteCells.mp hc
    rw [Cell.lights, Bool.and_eq_true, decide_eq_true_eq] at hlights
    obtain ⟨⟨rfl, rfl⟩, hset⟩ := hlights
    rw [Nat.add_sub_cancel_left, Nat.add_sub_cancel_left]
    refine ⟨⟨Nat.le_add_right .., ?_, Nat.le_add_right ..⟩, b, hb, hset⟩
    show x + bit < x + 8
    omega
  · rintro ⟨⟨hleft, hright, htop⟩, b, hb, hset⟩
    refine ⟨_, mem_spriteCells.mpr ⟨y' - y, x' - x, b, hb, by omega, rfl⟩, ?_⟩
    rw [Cell.lights, Bool.and_eq_true, decide_eq_true_eq]
    exact ⟨⟨Nat.add_sub_cancel' hleft, Nat.add_sub_cancel' htop⟩, hset⟩

end Screen

/-- The bytes of a slice are those of memory. -/
theorem Memory.getElem?_of_slice {m : Memory} {start count : Nat} {block : List UInt8}
    (h : m.slice start (start + count) = .ok block) {k : Nat} (hk : k < count) :
    block[k]? = m.bytes[start + k]? := by
  rw [slice_add] at h
  split at h
  · rename_i hfit
    have hfit : start + count ≤ m.bytes.size := hfit
    rw [← Except.ok.inj h, Array.getElem?_toList, Array.getElem?_extract, if_pos (by omega)]
  · cases h

/-- The font stands in a fresh memory. -/
theorem Memory.getElem?_font {k : Nat} (hk : k < font.length) :
    fresh.bytes[fontStart + k]? = font[k]? := by
  have hsize : (Array.replicate fontStart (0 : UInt8)).size = fontStart := Array.size_replicate
  rw [fresh, Array.append_assoc, Array.getElem?_append_right (by omega), hsize, Nat.add_sub_cancel_left,
    Array.getElem?_append_left (by rw [List.size_toArray]; exact hk), List.getElem?_toArray]

/-! ## Masks -/

/-- A sprite as it is asked for: what vX and vY hold, what I holds, and the number of rows. -/
structure Stamp where
  x : UInt8
  y : UInt8
  index : UInt16
  rows : UInt8
deriving DecidableEq, Repr

namespace Stamp

/-- The column of the corner, which wraps around the screen. -/
def left (s : Stamp) : Nat := s.x.toNat % 64

/-- The line of the corner, which wraps around the screen. -/
def top (s : Stamp) : Nat := s.y.toNat % 32

/-- The rows that are on the screen. -/
def visible (s : Stamp) : Nat := min s.rows.toNat (32 - s.top)

/-- Does the sprite have a set bit over the pixel?  The row is the line below the corner, and the highest
bit is leftmost. -/
def mask (s : Stamp) (memory : Memory) (c r : Nat) : Bool :=
  decide (s.left ≤ c ∧ c < s.left + 8 ∧ s.top ≤ r ∧ r < s.top + s.rows.toNat)
    && (memory.bytes[s.index.toNat + (r - s.top)]?.getD 0).toNat.testBit (7 - (c - s.left))

theorem mask_eq_true_iff {s : Stamp} {memory : Memory} {c r : Nat} : s.mask memory c r = true
    ↔ (s.left ≤ c ∧ c < s.left + 8 ∧ s.top ≤ r ∧ r < s.top + s.rows.toNat)
      ∧ ∃ b, memory.bytes[s.index.toNat + (r - s.top)]? = some b
        ∧ b.toNat.testBit (7 - (c - s.left)) = true := by
  rw [mask, Bool.and_eq_true, decide_eq_true_eq]
  refine and_congr_right fun _ => ?_
  cases memory.bytes[s.index.toNat + (r - s.top)]? with
  | none => simp
  | some b => simp

/-- A row that is on the screen is visible. -/
theorem sub_top_lt_visible {s : Stamp} {r : Nat} (hr : r < 32) (habove : s.top ≤ r)
    (hbelow : r < s.top + s.rows.toNat) : r - s.top < s.visible := by
  rw [visible, Nat.lt_min]
  omega

theorem left_lt (s : Stamp) : s.left < Screen.width := Nat.mod_lt _ (by decide)

theorem top_lt (s : Stamp) : s.top < Screen.height := Nat.mod_lt _ (by decide)

section Visible

variable {s : Stamp} {memory : Memory} {sprite : List UInt8}

/-- The visible rows are on the screen. -/
theorem cells_onScreen (hslice : memory.slice s.index.toNat (s.index.toNat + s.visible) = .ok sprite) :
    ∀ cell ∈ Screen.spriteCells s.left s.top sprite, cell.OnScreen := by
  have hlength := Memory.length_of_slice_eq_ok hslice
  have hvisible : s.visible = min s.rows.toNat (Screen.height - s.top) := rfl
  have htop := s.top_lt
  exact Screen.spriteCells_onScreen s.left_lt (by omega)

/-- Over the screen, the mask is read off the visible rows. -/
theorem mask_eq (hslice : memory.slice s.index.toNat (s.index.toNat + s.visible) = .ok sprite)
    {c r : Nat} (hc : c < Screen.width) (hr : r < Screen.height) :
    s.mask memory c r = (Screen.spriteCells s.left s.top sprite).any fun cell => cell.lights c r := by
  have hlength := Memory.length_of_slice_eq_ok hslice
  have hvisible : s.visible = min s.rows.toNat (Screen.height - s.top) := rfl
  apply Bool.eq_iff_iff.mpr
  rw [Screen.any_lights_spriteCells hc, mask_eq_true_iff]
  constructor
  · rintro ⟨⟨hleft, hright, habove, hbelow⟩, b, hb, hset⟩
    rw [← Memory.getElem?_of_slice hslice (sub_top_lt_visible hr habove hbelow)] at hb
    exact ⟨⟨hleft, hright, habove⟩, b, hb, hset⟩
  · rintro ⟨⟨hleft, hright, habove⟩, b, hb, hset⟩
    have hrow : r - s.top < s.visible := hlength ▸ (List.getElem?_eq_some_iff.mp hb).1
    rw [Memory.getElem?_of_slice hslice hrow] at hb
    exact ⟨⟨hleft, hright, habove, by omega⟩, b, hb, hset⟩

/-- The visible rows flip the pixels of the mask, and one goes out exactly if it was lit. -/
theorem plot_mask (hslice : memory.slice s.index.toNat (s.index.toNat + s.visible) = .ok sprite)
    {old new : Screen} {hit : Bool} (hs : old.pixels.size = Screen.width * Screen.height)
    (hplot : Screen.plot (Screen.spriteCells s.left s.top sprite) old false = (.ok hit, new)) :
    (∀ c < Screen.width, ∀ r < Screen.height, new.lit c r = (old.lit c r ^^ s.mask memory c r))
    ∧ (hit = true ↔ ∃ c < Screen.width, ∃ r < Screen.height,
      s.mask memory c r = true ∧ old.lit c r = true) := by
  have hcells := cells_onScreen hslice
  obtain ⟨hlit, hhit⟩ := Screen.plot_apart hs hcells (Screen.spriteCells_apart ..) hplot
  constructor
  · intro c hc r hr
    rw [mask_eq hslice hc hr]
    exact hlit c hc r
  · rw [hhit]
    constructor
    · rintro (h | ⟨cell, hcell, hset, hwas⟩)
      · cases h
      · obtain ⟨hc, hr⟩ := hcells cell hcell
        refine ⟨cell.x, hc, cell.y, hr, ?_, hwas⟩
        rw [mask_eq hslice hc hr, List.any_eq_true]
        exact ⟨cell, hcell, by rw [Screen.Cell.lights, hset]; simp⟩
    · rintro ⟨c, hc, r, hr, hmask, hwas⟩
      rw [mask_eq hslice hc hr] at hmask
      obtain ⟨cell, hcell, hlights⟩ := List.any_eq_true.mp hmask
      rw [Screen.Cell.lights, Bool.and_eq_true, decide_eq_true_eq] at hlights
      obtain ⟨⟨rfl, rfl⟩, hset⟩ := hlights
      exact .inr ⟨cell, hcell, hset, hwas⟩

end Visible

/-- The first visible row that is not in memory. -/
structure FirstMissing (s : Stamp) (row : Nat) : Prop where
  visible : row < s.visible
  outside : 0x1000 ≤ s.index.toNat + row
  first : ∀ k < row, s.index.toNat + k < 0x1000

/-- It is the first row, or the one behind the last byte of memory. -/
theorem firstMissing_iff {s : Stamp} {row : Nat} : s.FirstMissing row
    ↔ 0x1000 < s.index.toNat + s.visible ∧ 0 < s.visible ∧ row = 0x1000 - s.index.toNat := by
  constructor
  · rintro ⟨hvisible, houtside, hfirst⟩
    rcases Nat.eq_zero_or_pos row with rfl | hpos
    · omega
    · have hbefore := hfirst (row - 1) (by omega)
      omega
  · rintro ⟨hfar, hvisible, rfl⟩
    exact ⟨by omega, by omega, fun k hk => by omega⟩

/-- Some row is visible, if there is any. -/
theorem visible_eq_zero_iff {s : Stamp} : s.visible = 0 ↔ s.rows = 0 := by
  have htop : s.top < 32 := s.top_lt
  have hrows : s.rows = 0 ↔ s.rows.toNat = 0 := UInt8.toNat_inj.symm
  rw [visible, hrows]
  omega

end Stamp

namespace Machine

variable {ρ : Type}

/-! ## Drawing -/

/-- The sprite that an instruction asks a machine for. -/
def stamp (m : Machine ρ) (x y : Fin 16) (rows : UInt8) : Stamp := ⟨m.v.get x, m.v.get y, m.index, rows⟩

section Drawing

variable {m n : Machine ρ} {x y : Fin 16} {rows : UInt8}

/-- The visible rows are all in memory, or nothing is drawn. -/
theorem drawSprite_done_iff (hs : m.screen.pixels.size = Screen.width * Screen.height) :
    (∃ n, m.drawSprite x y rows = .done n)
      ↔ m.index.toNat + (m.stamp x y rows).visible ≤ m.memory.length := by
  have hslice := Memory.slice_add m.memory m.index.toNat (m.stamp x y rows).visible
  constructor
  · rintro ⟨n, hdone⟩
    refine Nat.le_of_not_lt fun hfar => ?_
    rw [if_neg (Nat.not_le.mpr hfar)] at hslice
    unfold drawSprite at hdone
    simp only [stamp, Stamp.visible, Stamp.top] at hslice
    simp only [Screen.height, hslice] at hdone
    cases hdone
  · intro hfit
    rw [if_pos hfit] at hslice
    obtain ⟨hit, screen, -, hdone⟩ := drawSprite_of_full hs x y rows hslice
    exact ⟨_, hdone⟩

/-- **A drawing flips the pixels of its mask**, and notes whether one of them was lit. -/
theorem drawn_mask (hs : m.screen.pixels.size = Screen.width * Screen.height)
    (h : m.drawSprite x y rows = .done n) :
    ∃ hit screen, n = m.drawn screen hit ∧ screen.pixels.size = Screen.width * Screen.height
      ∧ (∀ c < Screen.width, ∀ r < Screen.height,
        screen.lit c r = (m.screen.lit c r ^^ (m.stamp x y rows).mask m.memory c r))
      ∧ (hit = true ↔ ∃ c < Screen.width, ∃ r < Screen.height,
        (m.stamp x y rows).mask m.memory c r = true ∧ m.screen.lit c r = true) := by
  have hfit := (drawSprite_done_iff hs).mp ⟨n, h⟩
  have hslice := Memory.slice_add m.memory m.index.toNat (m.stamp x y rows).visible
  rw [if_pos hfit] at hslice
  obtain ⟨hit, screen, hplot, hdone⟩ := drawSprite_of_full hs x y rows hslice
  obtain rfl := Outcome.done.inj (h.symm.trans hdone)
  refine ⟨hit, screen, rfl, ?_, Stamp.plot_mask (s := m.stamp x y rows) hslice hs hplot⟩
  have hsize := congrArg (fun p => p.2.pixels.size) hplot
  exact (hsize.symm.trans (Screen.size_plot ..)).trans hs

/-- A flag tells whether the screen shows `b` somewhere under a mask. -/
theorem flag_tells {screen : Screen} {mask : Nat → Nat → Bool} {b hit : Bool}
    (hs : screen.pixels.size = Screen.width * Screen.height)
    (hhit : hit = true ↔ ∃ c < Screen.width, ∃ r < Screen.height,
      mask c r = true ∧ screen.lit c r = b) :
    flagOf hit = 1 ∧ (∃ c < 64, ∃ r < 32, mask c r = true ∧ screen.get c r = .ok b)
    ∨ flagOf hit = 0 ∧ ∀ c < 64, ∀ r < 32, mask c r = true → screen.get c r = .ok (!b) := by
  cases hit with
  | true =>
    obtain ⟨c, hc, r, hr, hset, hshown⟩ := hhit.mp rfl
    exact .inl ⟨rfl, c, hc, r, hr, hset, hshown ▸ Screen.get_eq_lit hs hc hr⟩
  | false =>
    refine .inr ⟨rfl, fun c hc r hr hset => ?_⟩
    have hother : screen.lit c r ≠ b := fun hshown =>
      Bool.false_ne_true (hhit.mpr ⟨c, hc, r, hr, hset, hshown⟩)
    rw [Screen.get_eq_lit hs hc hr, Bool.eq_not.mpr hother]

/-- **What a sprite does to a screen of full size.**  Let the corner be (vX mod 64, vY mod 32), read before
anything is written, even if X or Y is F.
  * Every pixel is flipped over which the sprite has a set bit, and no other, and for that no byte is
    needed that is not in memory.
  * vF is one if one of these pixels was lit, and zero if not.
  * Nothing else is changed. -/
theorem sprite_flips_mask (hs : m.screen.pixels.size = Screen.width * Screen.height)
    (h : m.drawSprite x y rows = .done n) :
    let s := m.stamp x y rows
    (∀ c < 64, ∀ r < 32, ∃ was, m.screen.get c r = .ok was
      ∧ n.screen.get c r = .ok (was ^^ s.mask m.memory c r))
    ∧ n.screen.pixels.size = 64 * 32
    ∧ (∀ r < 32, s.top ≤ r → r < s.top + rows.toNat → ∃ b, m.memory.get (m.index.toNat + (r - s.top)) = .ok b)
    ∧ (n.v.get 15 = 1 ∧ (∃ c < 64, ∃ r < 32, s.mask m.memory c r = true ∧ m.screen.get c r = .ok true)
      ∨ n.v.get 15 = 0 ∧ ∀ c < 64, ∀ r < 32, s.mask m.memory c r = true → m.screen.get c r = .ok false)
    ∧ (∀ k, k ≠ 15 → n.v.get k = m.v.get k) ∧ n = { m with screen := n.screen, v := n.v } := by
  intro s
  have hfit := (drawSprite_done_iff hs).mp ⟨n, h⟩
  obtain ⟨hit, screen, rfl, hsize, hlit, hhit⟩ := drawn_mask hs h
  refine ⟨fun c hc r hr => ?_, hsize, fun r hr habove hbelow => ?_, ?_, fun k hk => ?_, rfl⟩
  · refine ⟨m.screen.lit c r, Screen.get_eq_lit hs hc hr, ?_⟩
    show screen.get c r = _
    rw [Screen.get_eq_lit hsize hc hr, hlit c hc r hr]
  · have hrow : r - s.top < s.visible := Stamp.sub_top_lt_visible hr habove hbelow
    have hin : m.index.toNat + (r - s.top) < m.memory.bytes.size :=
      Nat.lt_of_lt_of_le (Nat.add_lt_add_left hrow _) hfit
    exact ⟨_, Memory.get_eq_ok_iff.mpr (Array.getElem?_eq_getElem hin)⟩
  · rw [get_drawn, if_pos rfl]
    exact flag_tells hs hhit
  · rw [get_drawn, if_neg hk]

/-- A zero is drawn over the lower right corner of a blank screen, with its column in vF.  The first two
pixels of its first row are all there is room for. -/
theorem sprite_flips_mask_corner :
    let m : Machine Stepper :=
      ({ powerOn (Stepper.mk 0 1) with index := 0x50 }.setV 15 62).setV 1 31
    m.screen.pixels.size = Screen.width * Screen.height
    ∧ ∃ n, m.drawSprite 15 1 5 = .done n ∧ n.screen.get 63 31 = .ok true
      ∧ n.screen.get 0 31 = .ok false ∧ n.v.get 15 = 0 := by
  intro m
  have hs : m.screen.pixels.size = Screen.width * Screen.height := Screen.size_blank
  have hfit : m.index.toNat + (m.stamp 15 1 5).visible ≤ m.memory.length := by
    show _ ≤ Memory.fresh.length
    rw [Memory.length_fresh]
    decide
  have hblank : ∀ c < 64, ∀ r < 32, m.screen.get c r = .ok false := fun _ hc _ hr =>
    Screen.get_blank hc hr
  have hbyte : m.memory.bytes[80]? = some 0xf0 := Memory.getElem?_font (k := 0) (by decide)
  have hset : (m.stamp 15 1 5).mask m.memory 63 31 = true :=
    Stamp.mask_eq_true_iff.mpr ⟨by decide, 0xf0, hbyte, by decide⟩
  have hclear : (m.stamp 15 1 5).mask m.memory 0 31 = false :=
    Bool.eq_false_iff.mpr fun h => absurd (Stamp.mask_eq_true_iff.mp h).1 (by decide)
  obtain ⟨n, hdone⟩ := (drawSprite_done_iff hs).mpr hfit
  obtain ⟨hpixel, -, -, hflag, -, -⟩ := sprite_flips_mask hs hdone
  refine ⟨hs, n, hdone, ?_, ?_, ?_⟩
  · obtain ⟨was, hwas, hnow⟩ := hpixel 63 (by decide) 31 (by decide)
    obtain rfl := Except.ok.inj ((hblank 63 (by decide) 31 (by decide)).symm.trans hwas)
    rw [hnow, hset]
    rfl
  · obtain ⟨was, hwas, hnow⟩ := hpixel 0 (by decide) 31 (by decide)
    obtain rfl := Except.ok.inj ((hblank 0 (by decide) 31 (by decide)).symm.trans hwas)
    rw [hnow, hclear]
    rfl
  · rcases hflag with ⟨-, c, hc, r, hr, -, hlit⟩ | ⟨hzero, -⟩
    · rw [hblank c hc r hr] at hlit
      cases hlit
    · exact hzero

/-! ## Rows that are not in memory -/

/-- **When a sprite is refused.**  On a machine with 4096 bytes and a full screen
  * a sprite with rows is refused exactly if a visible row is not in memory, and the error names the first
    such row;
  * a sprite without rows is refused exactly if I is past the end of memory, though it would read nothing
    there, and the error names I;
  * in every other case it is drawn, and a sprite that is refused leaves the machine as it was. -/
theorem refused_rows (hm : m.Sized) (x y : Fin 16) (rows : UInt8) :
    let s := m.stamp x y rows
    (∀ e, (∃ n, m.drawSprite x y rows = .failed (.error e) n)
      ↔ (∃ row, s.FirstMissing row ∧ e = .invalidAddress (m.index.toNat + row))
        ∨ rows = 0 ∧ 0x1000 < m.index.toNat ∧ e = .invalidAddress m.index.toNat)
    ∧ ((∃ n, m.drawSprite x y rows = .done n) ↔ (∀ row < s.visible, m.index.toNat + row < 0x1000)
        ∧ ¬ (rows = 0 ∧ 0x1000 < m.index.toNat))
    ∧ ∀ fault n, m.drawSprite x y rows = .failed fault n → (∃ e, fault = .error e) ∧ n = m := by
  intro s
  have hnone : s.visible = 0 ↔ rows = 0 := Stamp.visible_eq_zero_iff
  have hlength : m.memory.length = 0x1000 := hm.memory
  refine ⟨fun e => ?_, ?_, clean_drawSprite hm x y rows⟩
  · refine (fails_drawSprite_iff hm).trans ?_
    show 0x1000 < m.index.toNat + s.visible ∧ _ ↔ _
    constructor
    · rintro ⟨hfar, rfl⟩
      rcases Nat.eq_zero_or_pos s.visible with hzero | hsome
      · rw [Nat.max_eq_left (by omega)]
        exact .inr ⟨hnone.mp hzero, by omega, rfl⟩
      · refine .inl ⟨_, Stamp.firstMissing_iff.mpr ⟨hfar, hsome, rfl⟩, congrArg _ ?_⟩
        show max m.index.toNat 0x1000 = m.index.toNat + (0x1000 - m.index.toNat)
        omega
    · rintro (⟨row, hmissing, rfl⟩ | ⟨-, hfar, rfl⟩)
      · obtain ⟨hfar, -, rfl⟩ := Stamp.firstMissing_iff.mp hmissing
        refine ⟨hfar, congrArg _ ?_⟩
        show m.index.toNat + (0x1000 - m.index.toNat) = max m.index.toNat 0x1000
        omega
      · exact ⟨by omega, congrArg _ (Nat.max_eq_left (Nat.le_of_lt hfar)).symm⟩
  · rw [drawSprite_done_iff hm.screen, hlength]
    show m.index.toNat + s.visible ≤ 0x1000 ↔ _
    constructor
    · intro hfit
      exact ⟨fun row hrow => by omega, fun h => by omega⟩
    · rintro ⟨hin, hsome⟩
      rcases Nat.eq_zero_or_pos s.visible with hzero | hpos
      · exact Nat.le_of_not_lt fun hfar => hsome ⟨hnone.mp hzero, by omega⟩
      · have hlast := hin (s.visible - 1) (by omega)
        omega

/-- Fifteen rows from the last but one byte, two lines above the lower edge.  The two visible rows are all
that is read. -/
theorem refused_rows_clipped :
    let m : Machine Stepper := { powerOn (Stepper.mk 0 1) with index := 0xffe }.setV 1 30
    m.Sized ∧ (m.stamp 0 1 15).visible = 2 ∧ ∃ n, m.drawSprite 0 1 15 = .done n := by
  intro m
  have hm : m.Sized := ⟨Memory.length_fresh, Screen.size_blank, Nat.zero_le _⟩
  have hvisible : (m.stamp 0 1 15).visible = 2 := by decide
  refine ⟨hm, hvisible, (refused_rows hm 0 1 15).2.1.mpr ⟨fun row hrow => ?_, by decide⟩⟩
  rw [hvisible] at hrow
  show 0xffe + row < 0x1000
  omega

end Drawing

section Words

variable [ByteSource ρ]

/-- A word that begins with D draws a sprite. -/
theorem executeWord_draw (m : Machine ρ) {w : UInt16} (hg : Word.group w = 0xd) :
    m.executeWord w = m.drawSprite (Word.regX w) (Word.regY w) (Word.n w) := by
  rw [executeWord_of_group m .draw (congrArg UInt8.toNat hg) rfl]
  simp only [Opcode.instruction, Word.field, perform, withRegister_of_lt (Word.x_lt w),
    withRegister_of_lt (Word.y_lt w), UInt8.ofNat_toNat]
  rfl

end Words

/-- A sprite without rows that is refused.  A program adds two to an I at the last byte of memory, and the
`D000` after it fails, although it would draw nothing and so read nothing. -/
theorem refused_without_rows :
    let m := (powerOn (Stepper.mk 0 1)).after
      [.executeWord 0xafff, .setRegister 0 2, .executeWord 0xf01e]
    m.index = 0x1001 ∧ (∀ row, ¬ row < (m.stamp 0 0 0).visible)
    ∧ m.drawSprite 0 0 0 = .failed (.error (.invalidAddress 0x1001)) m
    ∧ m.executeWord 0xd000 = .failed (.error (.invalidAddress 0x1001)) m := by
  intro m
  have hwords : Instruction.ofWord? 0xafff = some (.setIndex 0xfff)
      ∧ Instruction.ofWord? 0xf01e = some (.addIndex 0) := by decide
  have hm : m = { powerOn (Stepper.mk 0 1) with
      index := 0x1001, v := (Vector.replicate 16 0).set 0 2 } := by
    simp only [m, after, Operation.apply, executeWord, hwords]
    rfl
  have hsized : m.Sized := by
    rw [hm]
    exact ⟨Memory.length_fresh, Screen.size_blank, Nat.zero_le _⟩
  have hindex : m.index = 0x1001 := by rw [hm]
  have hvisible : (m.stamp 0 0 0).visible = 0 := Stamp.visible_eq_zero_iff.mpr rfl
  have hrefused : m.drawSprite 0 0 0 = .failed (.error (.invalidAddress 0x1001)) m := by
    have hfails : (m.drawSprite 0 0 0).Fails (.invalidAddress 0x1001) := by
      refine (fails_drawSprite_iff hsized).mpr ⟨?_, ?_⟩ <;> rw [hindex]
      · exact Nat.lt_add_right _ (by decide)
      · rfl
    obtain ⟨n, hn⟩ := hfails
    obtain ⟨-, rfl⟩ := clean_drawSprite hsized 0 0 0 _ _ hn
    exact hn
  refine ⟨hindex, fun row hrow => ?_, hrefused, ?_⟩
  · rw [hvisible] at hrow
    exact Nat.not_lt_zero row hrow
  · rw [executeWord_draw m (by decide)]
    exact hrefused

end Machine

end Chip8
