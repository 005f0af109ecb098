/-
  The screen.

  A screen is a row of pixels read line by line, 64 to a line; a fresh one has 32 lines.  A screen
  read in from outside may have any number of pixels:
    * `get` and `set` crash off the 64 by 32 coordinates, and also past the end of the pixels;
    * `rows` gives the complete lines only, and the text and the counts are taken from them.

  Drawing a sprite first lists the cells of the screen it covers (`spriteCells`), already clipped at
  the right and at the bottom, and then flips the lit ones in turn, noting whether one went out.
-/
import Chip8.Fault

namespace Chip8

/-- A row of pixels, lit or not. -/
structure Screen where
  pixels : Array Bool
deriving DecidableEq, Repr

namespace Screen

/-! ## Pixels -/

/-- Pixels in a line. -/
def width : Nat := 64

/-- Lines of the screen. -/
def height : Nat := 32

/-- The screen with every pixel off. -/
def blank : Screen := ⟨Array.replicate (width * height) false⟩

instance : Inhabited Screen := ⟨blank⟩

/-- Turn every pixel off. -/
def clear (s : Screen) : Screen := ⟨s.pixels.map fun _ => false⟩

/-- The place of a pixel in the row. -/
def place (x y : Nat) : Except Crash Nat :=
  if x < width ∧ y < height then .ok (y * width + x) else .error (.offScreen x y)

/-- Is the pixel lit? -/
def get (s : Screen) (x y : Nat) : Except Crash Bool := do
  let k ← place x y
  match s.pixels[k]? with
  | some lit => .ok lit
  | none => .error .index

/-- Turn a pixel on or off. -/
def set (s : Screen) (x y : Nat) (lit : Bool) : Except Crash Screen := do
  let k ← place x y
  if h : k < s.pixels.size then .ok ⟨s.pixels.set k lit h⟩ else .error .index

/-- Is every pixel off? -/
def isBlank (s : Screen) : Bool := s.pixels.all (!·)

/-! ## Lines -/

/-- The complete lines, top to bottom. -/
def rows (s : Screen) : List (List Bool) :=
  (List.range (s.pixels.size / width)).map fun y =>
    (s.pixels.extract (y * width) (y * width + width)).toList

/-- The mark of a pixel. -/
def mark (lit : Bool) : Char := if lit then '#' else '.'

/-- The text of a line. -/
def rowText (row : List Bool) : List Char := row.map mark ++ ['\n']

/-- The picture — a line of marks for every complete line of pixels. -/
def text (s : Screen) : String := String.ofList (s.rows.flatMap rowText)

/-! ## No operation changes the number of pixels -/

@[simp] theorem size_blank : blank.pixels.size = width * height := by simp [blank]

/-- Clearing turns pixels off and removes none. -/
@[simp] theorem size_clear (s : Screen) : s.clear.pixels.size = s.pixels.size := by simp [clear]

/-- Nor does setting one change their number. -/
theorem size_set {s t : Screen} {x y : Nat} {lit : Bool} (h : s.set x y lit = .ok t) :
    t.pixels.size = s.pixels.size := by
  simp only [set, bind, Except.bind] at h
  split at h
  · cases h
  · split at h
    · obtain rfl := Except.ok.inj h
      simp
    · cases h

/-! ## Sprites -/

/-- One cell under a sprite — where it is on the screen and whether the sprite lights it. -/
structure Cell where
  x : Nat
  y : Nat
  lit : Bool
deriving DecidableEq, Repr

/-- The cells under one sprite byte, highest bit leftmost, that are not past the right edge. -/
def byteCells (x y : Nat) (b : UInt8) : List Cell :=
  (List.range (min 8 (width - x))).map fun bit => ⟨x + bit, y, b.toNat.testBit (7 - bit)⟩

/-- The cells under a sprite with its upper left corner at (x, y), row by row.  The caller gives
only rows that are on the screen. -/
def spriteCells (x y : Nat) (sprite : List UInt8) : List Cell :=
  (sprite.mapIdx fun line b => byteCells x (y + line) b).flatten

/-- Flip the lit cells one after the other, and note whether a pixel went out; `hit` is the note so
far.  A cell that is not there stops it, with the screen as far as it was drawn. -/
def plot : List Cell → Screen → Bool → Except Crash Bool × Screen
  | [], s, hit => (.ok hit, s)
  | c :: cells, s, hit =>
      match place c.x c.y with
      | .error crash => (.error crash, s)
      | .ok k =>
          if h : k < s.pixels.size then
            let was := s.pixels[k]
            plot cells ⟨s.pixels.set k (c.lit ^^ was) h⟩ (hit || (c.lit && was))
          else (.error .index, s)

end Screen

/-! ## Examples -/

example : Screen.get ⟨#[]⟩ 64 0 = .error (.offScreen 64 0) ∧ Screen.get ⟨#[]⟩ 0 0 = .error .index :=
  ⟨rfl, rfl⟩
example : Screen.spriteCells 62 0 [0x80, 0xff] =
    [⟨62, 0, true⟩, ⟨63, 0, false⟩, ⟨62, 1, true⟩, ⟨63, 1, true⟩] := by decide

end Chip8
