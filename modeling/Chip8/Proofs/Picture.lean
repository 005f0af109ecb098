/-
  The picture on the screen.

  Pixels are kept in one row, line after line.  They are set one by one, all cleared at once, and looked at
  in four ways: one by one, in lines, as a text, and only for whether there are any.
  1. **Painting** (`paint_ok`).  A pixel shows what was last put there, and a clear puts all of them out.
  2. **Looking** (`shows`).  On a full screen every view shows the pixels at their coordinates
     (`rows_eq`, `toList_text`).
  3. **The text tells the screen** (`text_eq_iff`).  All lines are equally long, so a text can be cut into
     them, and the marks of a line tell its pixels.
-/
import Chip8.Proofs.Blocks
import Chip8.Proofs.LastWrite
import Chip8.Proofs.Sprite

namespace Chip8.Screen

/-! ## Painting -/

/-- One thing to do to the screen. -/
inductive Stroke where
  /-- Put a pixel on or off. -/
  | set (x : Fin width) (y : Fin height) (lit : Bool)
  /-- Put all pixels off. -/
  | clear

namespace Stroke

/-- The screen after a stroke. -/
def apply (s : Screen) : Stroke → Except Crash Screen
  | set x y lit => s.set x y lit
  | clear => .ok s.clear

/-- What a stroke puts into a pixel, if anything. -/
def at? (x y : Nat) : Stroke → Option Bool
  | set x' y' lit => if x' = x ∧ y' = y then some lit else none
  | clear => some false

end Stroke

/-- Paint on a screen. -/
def paint (s : Screen) (strokes : List Stroke) : Except Crash Screen := strokes.foldlM Stroke.apply s

/-- Every view of the screen shows these pixels: they can be looked at one by one, there is one line for
every y and one pixel in it for every x, the text has a mark for each of them and ends every line with a
newline, and the screen is blank if the text has no mark of a lit pixel. -/
structure Shows (s : Screen) (pixel : Nat → Nat → Bool) : Prop where
  get : ∀ x y, s.get x y
    = if x < width ∧ y < height then .ok (pixel x y) else .error (.offScreen x y)
  rows : s.rows = (List.range height).map fun y => (List.range width).map fun x => pixel x y
  text : s.text.toList = (List.range height).flatMap fun y =>
    (List.range width).map (fun x => if pixel x y then '#' else '.') ++ ['\n']
  isBlank : s.isBlank = true ↔ '#' ∉ s.text.toList

variable {s t : Screen} {x y : Nat}

/-- Off the screen there is no place, and the error says where it would have been. -/
theorem place_offScreen (h : ¬ (x < width ∧ y < height)) : place x y = .error (.offScreen x y) :=
  if_neg h

theorem set_offScreen (h : ¬ (x < width ∧ y < height)) (lit : Bool) :
    s.set x y lit = .error (.offScreen x y) := by
  rw [set, place_offScreen h]
  rfl

theorem get_offScreen (h : ¬ (x < width ∧ y < height)) : s.get x y = .error (.offScreen x y) := by
  rw [get, place_offScreen h]
  rfl

/-- After a clear no pixel is lit. -/
theorem lit_clear (s : Screen) (x y : Nat) : s.clear.lit x y = false := by
  rw [lit, clear, Array.getElem?_map]
  cases s.pixels[y * width + x]? <;> rfl

/-- A stroke puts what it puts, and leaves the other pixels. -/
theorem apply_ok (hs : s.pixels.size = width * height) (stroke : Stroke) :
    ∃ t, stroke.apply s = .ok t ∧ t.pixels.size = width * height
      ∧ ∀ x < width, ∀ y, t.lit x y = (stroke.at? x y).getD (s.lit x y) := by
  cases stroke with
  | set x' y' lit =>
    have hk : y' * width + x' < s.pixels.size := hs ▸ place_lt x'.isLt y'.isLt
    refine ⟨⟨s.pixels.set (y' * width + x') lit hk⟩, ?_, (Array.size_set hk).trans hs, fun x hx y => ?_⟩
    · rw [Stroke.apply, set, place_onScreen x'.isLt y'.isLt]
      exact dif_pos hk
    · rw [lit_set hk x'.isLt hx, Stroke.at?]
      split <;> rfl
  | clear => exact ⟨s.clear, rfl, (size_clear s).trans hs, fun x _ y => lit_clear s x y⟩

/-- **A pixel shows what was last put there.** -/
theorem paint_ok (hs : s.pixels.size = width * height) (strokes : List Stroke) :
    ∃ t, s.paint strokes = .ok t ∧ t.pixels.size = width * height
      ∧ ∀ x < width, ∀ y, t.lit x y = (lastPut (Stroke.at? x y) strokes).getD (s.lit x y) := by
  induction strokes generalizing s with
  | nil => exact ⟨s, rfl, hs, fun _ _ _ => rfl⟩
  | cons stroke strokes ih =>
    obtain ⟨s₁, happly, hs₁, hfirst⟩ := apply_ok hs stroke
    obtain ⟨t, hpaint, ht, hothers⟩ := ih hs₁
    refine ⟨t, ?_, ht, fun x hx y => ?_⟩
    · rw [paint, List.foldlM_cons, happly]
      exact hpaint
    · rw [hothers x hx y, hfirst x hx y, lastPut_cons, Option.getD_or]

/-- One more stroke. -/
theorem paint_concat {strokes : List Stroke} (h : s.paint strokes = .ok t) (stroke : Stroke) :
    s.paint (strokes ++ [stroke]) = stroke.apply t := by
  rw [paint] at h ⊢
  rw [List.foldlM_append, h]
  exact bind_pure (stroke.apply t)

/-! ## Looking -/

/-- The lines of a full screen are its pixels at their coordinates. -/
theorem rows_eq (hs : s.pixels.size = width * height) :
    s.rows = (List.range height).map fun y => (List.range width).map fun x => s.lit x y := by
  have hcount : width * height / width = height := by decide
  rw [rows, hs, hcount]
  refine List.map_congr_left fun y hy => List.ext_getElem? fun x => ?_
  have hstop : y * width + width ≤ s.pixels.size := by
    have hy := List.mem_range.mp hy
    simp only [hs, width, height] at *
    omega
  rw [Array.getElem?_toList, Array.getElem?_extract, Nat.min_eq_left hstop, List.getElem?_map,
    Nat.add_sub_cancel_left]
  by_cases hx : x < width
  · rw [if_pos hx, List.getElem?_range hx]
    have hk : y * width + x < s.pixels.size := by omega
    exact (Array.getElem?_eq_getElem hk).trans (congrArg some (lit_eq_getElem hk).symm)
  · rw [if_neg hx, List.getElem?_eq_none (by rw [List.length_range]; omega)]
    rfl

/-- **The text is the picture**, line by line, with a line break after each. -/
theorem toList_text (hs : s.pixels.size = width * height) :
    s.text.toList = (List.range height).flatMap fun y =>
      (List.range width).map (fun x => mark (s.lit x y)) ++ ['\n'] := by
  rw [text, String.toList_ofList, rows_eq hs, List.flatMap_map]
  simp only [rowText, List.map_map, Function.comp_def]

theorem mark_eq_lit_iff {lit : Bool} : mark lit = '#' ↔ lit = true := by cases lit <;> decide

/-- There is a `#` in the text exactly if a pixel is lit. -/
theorem mem_text_iff (hs : s.pixels.size = width * height) :
    '#' ∈ s.text.toList ↔ ∃ x < width, ∃ y < height, s.lit x y = true := by
  rw [toList_text hs]
  constructor
  · intro h
    obtain ⟨y, hy, hline⟩ := List.mem_flatMap.mp h
    rcases List.mem_append.mp hline with hmark | hnewline
    · obtain ⟨x, hx, hmark⟩ := List.mem_map.mp hmark
      exact ⟨x, List.mem_range.mp hx, y, List.mem_range.mp hy, mark_eq_lit_iff.mp hmark⟩
    · exact absurd hnewline (by decide)
  · rintro ⟨x, hx, y, hy, hlit⟩
    exact List.mem_flatMap.mpr ⟨y, List.mem_range.mpr hy, List.mem_append_left _
      (List.mem_map.mpr ⟨x, List.mem_range.mpr hx, mark_eq_lit_iff.mpr hlit⟩)⟩

/-- A screen of full size is blank exactly if it is the blank one. -/
theorem isBlank_iff (hs : s.pixels.size = width * height) : s.isBlank = true ↔ s = blank := by
  rw [isBlank, Array.all_eq_true_iff_forall_mem]
  constructor
  · intro h
    exact congrArg mk (Array.eq_replicate_iff.mpr ⟨hs, fun b hb => by simpa using h b hb⟩)
  · rintro rfl b hb
    rw [Array.eq_of_mem_replicate hb]
    rfl

/-- **Every view of a full screen shows its pixels.** -/
theorem shows (hs : s.pixels.size = width * height) : s.Shows s.lit where
  get x y := by
    split
    · next h => exact get_eq_lit hs h.1 h.2
    · next h => exact get_offScreen h
  rows := rows_eq hs
  text := toList_text hs
  isBlank := by
    rw [isBlank_iff hs, mem_text_iff hs]
    constructor
    · rintro rfl ⟨x, -, y, -, hlit⟩
      exact absurd (lit_blank x y ▸ hlit) Bool.false_ne_true
    · intro h
      refine ext_lit hs size_blank fun x hx y hy => ?_
      rw [lit_blank, Bool.eq_false_iff]
      exact fun hlit => h ⟨x, hx, y, hy, hlit⟩

/-- Only the pixels on the screen are shown. -/
theorem Shows.congr {pixel pixel' : Nat → Nat → Bool} (h : s.Shows pixel)
    (heq : ∀ x < width, ∀ y < height, pixel x y = pixel' x y) : s.Shows pixel' where
  get x y := by
    rw [h.get]
    split
    · next hin => rw [heq x hin.1 y hin.2]
    · rfl
  rows := by
    rw [h.rows]
    refine List.map_congr_left fun y hy => List.map_congr_left fun x hx => ?_
    exact heq x (List.mem_range.mp hx) y (List.mem_range.mp hy)
  text := by
    rw [h.text, List.flatMap_def, List.flatMap_def]
    refine congrArg List.flatten (List.map_congr_left fun y hy => ?_)
    refine congrArg (· ++ ['\n']) (List.map_congr_left fun x hx => ?_)
    rw [heq x (List.mem_range.mp hx) y (List.mem_range.mp hy)]
  isBlank := h.isBlank

/-! ## The text tells the screen -/

theorem mark_inj {lit lit' : Bool} (h : mark lit = mark lit') : lit = lit' := by
  rw [← Bool.coe_iff_coe, ← mark_eq_lit_iff, ← mark_eq_lit_iff, h]

theorem length_rowText (row : List Bool) : (rowText row).length = row.length + 1 := by
  rw [rowText, List.length_append, List.length_map, List.length_singleton]

/-- A line is read back from its text, for every mark stands for one pixel. -/
theorem rowText_inj {row row' : List Bool} (h : rowText row = rowText row') : row = row' :=
  (List.map_inj_right fun _ _ => mark_inj).mp (List.append_cancel_right h)

/-- The pixels are found in the lines. -/
theorem lit_eq_of_rows (hs : s.pixels.size = width * height) (hx : x < width) (hy : y < height) :
    (s.rows[y]?.bind fun row => row[x]?) = some (s.lit x y) := by
  rw [rows_eq hs, List.getElem?_map, List.getElem?_range hy, Option.map_some, Option.bind_some,
    List.getElem?_map, List.getElem?_range hx, Option.map_some]

/-- **Full screens have the same text exactly if they are the same.** -/
theorem text_eq_iff (hs : s.pixels.size = width * height) (ht : t.pixels.size = width * height) :
    s.text = t.text ↔ s = t := by
  refine ⟨fun h => ?_, congrArg text⟩
  have hlines : ∀ {u : Screen}, u.pixels.size = width * height →
      ∀ row ∈ u.rows, (rowText row).length = width + 1 := by
    intro u hu row hrow
    rw [rows_eq hu] at hrow
    obtain ⟨y, -, rfl⟩ := List.mem_map.mp hrow
    rw [length_rowText, List.length_map, List.length_range]
  have hrows : s.rows = t.rows := flatMap_inj_of_length (Nat.succ_pos width)
    (fun _ _ => rowText_inj) (hlines hs) (hlines ht) (String.ofList_injective h)
  refine ext_lit hs ht fun x hx y hy => Option.some.inj ?_
  rw [← lit_eq_of_rows hs hx hy, ← lit_eq_of_rows ht hx hy, hrows]

/-! ## All views agree -/

/-- **All views of a painted screen agree.**  Take any strokes on a blank screen.
  * They can all be painted, and every view shows for each pixel what was last put there since the last
    clear, or that it is off: each pixel by itself, the 32 lines of 64 pixels, the 32 lines of the text,
    and whether there is anything at all.
  * A pixel can be looked at, and put on or off, exactly if it is on the screen.  Off the screen both
    crash, and name the coordinates.  On it, it is one more stroke.
  * Two such screens have the same text exactly if they are the same. -/
theorem picture_of_strokes (strokes : List Stroke) : ∃ s, blank.paint strokes = .ok s
    ∧ s.Shows (fun x y => (lastPut (Stroke.at? x y) strokes).getD false)
    ∧ (∀ x y lit, if h : x < width ∧ y < height
        then ∃ t, s.set x y lit = .ok t
          ∧ blank.paint (strokes ++ [.set ⟨x, h.1⟩ ⟨y, h.2⟩ lit]) = .ok t
        else s.set x y lit = .error (.offScreen x y) ∧ s.get x y = .error (.offScreen x y))
    ∧ ∀ others, ∃ t, blank.paint others = .ok t ∧ (s.text = t.text ↔ s = t) := by
  obtain ⟨s, hpaint, hs, hlit⟩ := paint_ok size_blank strokes
  refine ⟨s, hpaint, (shows hs).congr fun x hx y _ => ?_, fun x y lit => ?_, fun others => ?_⟩
  · rw [hlit x hx y, lit_blank]
  · split
    · next h =>
      obtain ⟨t, happly, -⟩ := apply_ok hs (.set ⟨x, h.1⟩ ⟨y, h.2⟩ lit)
      exact ⟨t, happly, (paint_concat hpaint _).trans happly⟩
    · next h => exact ⟨set_offScreen h lit, get_offScreen h⟩
  · obtain ⟨t, hpaint', ht, -⟩ := paint_ok size_blank others
    exact ⟨t, hpaint', text_eq_iff hs ht⟩

/-! ## Examples -/

-- What is cleared away is not lit again by a pixel that has the same coordinates the other way round.
example : lastPut (Stroke.at? 1 2) [.set ⟨1, by decide⟩ ⟨2, by decide⟩ true, .clear,
    .set ⟨2, by decide⟩ ⟨1, by decide⟩ true] = some false := by decide

end Chip8.Screen
