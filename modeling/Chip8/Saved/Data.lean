/-
  Saved data.

  The tree a value is written to and read back from — the common ground of formats with named fields
  and lists.  A few readings recur:
    * a value with named fields is a record that has them all (others are ignored), or a list of
      exactly their values in order;
    * a value that is one of several cases is the name of the case, or a record whose only field is
      named for it and holds what the case carries — a record again, for a list will not do there;
    * a whole number is below a bound.
-/

namespace Chip8

/-- A tree of plain data. -/
inductive Data where
  | null
  | bool (b : Bool)
  /-- A whole number from zero up. -/
  | natural (n : Nat)
  /-- Any other number, which nothing here reads. -/
  | otherNumber
  | text (s : String)
  | list (items : List Data)
  | record (fields : List (String × Data))
deriving Repr

instance : Inhabited Data := ⟨.null⟩

namespace Data

/-- A truth value. -/
def bool? : Data → Option Bool
  | bool b => some b
  | _ => none

/-- A whole number below a bound. -/
def naturalBelow? (bound : Nat) : Data → Option Nat
  | natural n => if n < bound then some n else none
  | _ => none

/-- A byte. -/
def byte? (d : Data) : Option UInt8 := (d.naturalBelow? UInt8.size).map UInt8.ofNat

/-- A sixteen-bit word. -/
def word? (d : Data) : Option UInt16 := (d.naturalBelow? UInt16.size).map UInt16.ofNat

/-- A list, each item read in the same way. -/
def listOf? {α : Type} (read : Data → Option α) : Data → Option (List α)
  | list items => items.mapM read
  | _ => none

/-- The values of the named fields of a record, in the order of the names. -/
def recordFields? (names : List String) : Data → Option (List Data)
  | record fields => names.mapM fun name => fields.lookup name
  | _ => none

/-- The values of the named fields of a record, or of a list of as many, in the order of the names. -/
def fields? (names : List String) : Data → Option (List Data)
  | record fields => (record fields).recordFields? names
  | list items => if items.length = names.length then some items else none
  | _ => none

/-- The value of the only field there should be. -/
def field? (name : String) (d : Data) : Option Data :=
  match d.fields? [name] with
  | some [value] => some value
  | _ => none

/-- The values of two named fields. -/
def twoFields? (first second : String) (d : Data) : Option (Data × Data) :=
  match d.fields? [first, second] with
  | some [a, b] => some (a, b)
  | _ => none

/-- The name of a case, with what it carries if that is spelt out. -/
def case? : Data → Option (String × Option Data)
  | text name => some (name, none)
  | record [(name, value)] => some (name, some value)
  | _ => none

/-- The name of a case that carries nothing. -/
def bareCase? (d : Data) : Option String :=
  match d.case? with
  | some (name, none) | some (name, some null) => some name
  | _ => none

end Data

/-! ## Examples -/

example : Data.byte? (.natural 255) = some 255 ∧ Data.byte? (.natural 256) = none := by decide

end Chip8
