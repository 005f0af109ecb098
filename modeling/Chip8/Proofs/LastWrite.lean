/-
  The last write wins.

  A memory has many addresses and a screen many pixels, and both are written to again and again.  One write
  puts something into some of the places and leaves the others as they are.  If that is all one knows of a
  write, then one knows what a place holds after many: what was last put there (`holds_foldl`).
-/

namespace Chip8

section Writes

variable {σ ω α : Type} {puts : ω → Option α}

/-- What the last of the writes that put something into a place put there; `puts` tells what a write puts
into it. -/
def lastPut (puts : ω → Option α) (writes : List ω) : Option α := (writes.filterMap puts).getLast?

theorem lastPut_cons (w : ω) (writes : List ω) :
    lastPut puts (w :: writes) = (lastPut puts writes).or (puts w) := by
  rw [lastPut, lastPut, List.filterMap_cons]
  cases puts w with
  | none => rw [Option.or_none]
  | some a =>
    rw [List.getLast?_cons]
    cases (writes.filterMap puts).getLast? <;> rfl

/-- **The last write wins.**  A place that holds what a write puts there, or else what it held before, holds
what was last put there, or else what it held at first. -/
theorem holds_foldl {act : σ → ω → σ} (Fine : σ → Prop) (holds : σ → Option α)
    (hfine : ∀ s w, Fine s → Fine (act s w))
    (hholds : ∀ s w, Fine s → holds (act s w) = (puts w).or (holds s)) {s : σ} (hs : Fine s)
    (writes : List ω) : holds (writes.foldl act s) = (lastPut puts writes).or (holds s) := by
  induction writes generalizing s with
  | nil => rfl
  | cons w writes ih =>
    rw [List.foldl_cons, ih (hfine s w hs), hholds s w hs, lastPut_cons, Option.or_assoc]

end Writes

end Chip8
