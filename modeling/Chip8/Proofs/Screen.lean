/-
  Drawing stays on the screen.

  `Screen.plot` stops at a cell it cannot find, so three facts about the cells under a sprite settle
  that it never does on a screen of full size:
    * a sprite that starts on the screen and has no more rows than are left has all its cells there
      (`spriteCells_onScreen`);
    * such cells are plotted to the last (`plot_onScreen`);
    * plotting changes no screen's size (`size_plot`).
-/
import Chip8.Screen

namespace Chip8.Screen

/-! ## Pixels by their coordinates -/

/-- Is the cell on the screen? -/
def Cell.OnScreen (c : Cell) : Prop := c.x < width ∧ c.y < height

/-- On the screen every place exists. -/
theorem place_onScreen {x y : Nat} (hx : x < width) (hy : y < height) :
    place x y = .ok (y * width + x) :=
  if_pos ⟨hx, hy⟩

/-- The place of a pixel on the screen is one of the 2048. -/
theorem place_lt {x y : Nat} (hx : x < width) (hy : y < height) :
    y * width + x < width * height := by
  simp only [width, height] at *
  omega

/-! ## Plotting -/

/-- However far plotting comes, there are as many pixels afterwards. -/
theorem size_plot (cells : List Cell) (s : Screen) (hit : Bool) :
    (plot cells s hit).2.pixels.size = s.pixels.size := by
  induction cells generalizing s hit with
  | nil => rfl
  | cons c cells ih =>
    rw [plot]
    split
    · rfl
    · split
      · rw [ih, Array.size_set]
      · rfl

/-- One cell that is there is plotted, and the others after it. -/
theorem plot_cons {c : Cell} (cells : List Cell) {s : Screen} (hit : Bool) (hc : c.OnScreen)
    (hk : c.y * width + c.x < s.pixels.size) :
    plot (c :: cells) s hit
      = plot cells ⟨s.pixels.set (c.y * width + c.x) (c.lit ^^ s.pixels[c.y * width + c.x]) hk⟩
          (hit || (c.lit && s.pixels[c.y * width + c.x])) := by
  rw [plot, place_onScreen hc.1 hc.2]
  exact dif_pos hk

/-- Cells that are all there are plotted to the last. -/
theorem plot_onScreen {cells : List Cell} {s : Screen} (hit : Bool)
    (hs : s.pixels.size = width * height) (hcells : ∀ c ∈ cells, c.OnScreen) :
    ∃ hit' s', plot cells s hit = (.ok hit', s') := by
  induction cells generalizing s hit with
  | nil => exact ⟨hit, s, rfl⟩
  | cons c cells ih =>
    have hc := hcells c (List.mem_cons_self ..)
    have hk : c.y * width + c.x < s.pixels.size := hs ▸ place_lt hc.1 hc.2
    rw [plot_cons cells hit hc hk]
    refine ih _ ?_ fun c' hc' => hcells c' (List.mem_cons_of_mem _ hc')
    rw [Array.size_set, hs]

/-- Plotting one row of cells after another. -/
theorem plot_append (a b : List Cell) (s : Screen) (hit : Bool) :
    plot (a ++ b) s hit = match plot a s hit with
      | (.ok hit, s) => plot b s hit
      | (.error crash, s) => (.error crash, s) := by
  induction a generalizing s hit with
  | nil => rfl
  | cons c a ih =>
    rw [List.cons_append, plot, plot]
    split
    · rfl
    · split
      · exact ih ..
      · rfl

/-! ## The cells under a sprite -/

/-- A sprite is its first row over the others. -/
theorem spriteCells_cons (x y : Nat) (b : UInt8) (sprite : List UInt8) :
    spriteCells x y (b :: sprite) = byteCells x y b ++ spriteCells x (y + 1) sprite := by
  simp only [spriteCells, List.mapIdx_cons, List.flatten_cons, Nat.add_zero, Nat.add_assoc,
    Nat.add_comm 1]

/-- A byte is clipped at the right edge, so all its cells are on the screen. -/
theorem byteCells_onScreen {x y : Nat} (hx : x < width) (hy : y < height) (b : UInt8) :
    ∀ c ∈ byteCells x y b, c.OnScreen := by
  intro c hc
  obtain ⟨bit, hbit, rfl⟩ := List.mem_map.mp hc
  have hbit := List.mem_range.mp hbit
  exact ⟨show x + bit < width by omega, hy⟩

/-- A sprite that starts on the screen and ends above its lower edge is on the screen. -/
theorem spriteCells_onScreen {x y : Nat} {sprite : List UInt8} (hx : x < width)
    (hy : y + sprite.length ≤ height) : ∀ c ∈ spriteCells x y sprite, c.OnScreen := by
  induction sprite generalizing y with
  | nil => intro c hc; cases hc
  | cons b sprite ih =>
    rw [List.length_cons] at hy
    intro c hc
    rw [spriteCells_cons] at hc
    rcases List.mem_append.mp hc with hc | hc
    · exact byteCells_onScreen hx (by omega) b c hc
    · exact ih (by omega) c hc

end Chip8.Screen
