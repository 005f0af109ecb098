/-
  Hexadecimal numerals.

  Addresses, bytes and register numbers are all written in base sixteen:
    * small letters for addresses and bytes, capitals for register numbers;
    * `padded w` fills up with leading zeros to at least `w` digits and never cuts a digit off.

  The digit lists (`digits`, `capitals`, `paddedDigits`) are the objects to reason about; the text
  functions only wrap them.
-/

namespace Chip8.Hex

/-! ## Digit lists -/

/-- The digits of `n` in base sixteen, most significant first — zero is one digit. -/
def digits (n : Nat) : List Char := Nat.toDigits 16 n

/-- The digits of `n` with capital letters. -/
def capitals (n : Nat) : List Char := (digits n).map Char.toUpper

/-- The digits of `n` behind enough zeros to make at least `width` of them. -/
def paddedDigits (width n : Nat) : List Char :=
  List.replicate (width - (digits n).length) '0' ++ digits n

/-! ## Numerals as text -/

/-- The numeral of `n`, small letters, no padding. -/
def lower (n : Nat) : String := String.ofList (digits n)

/-- The numeral of `n`, capital letters, no padding. -/
def upper (n : Nat) : String := String.ofList (capitals n)

/-- The numeral of `n`, small letters, at least `width` digits. -/
def padded (width n : Nat) : String := String.ofList (paddedDigits width n)

/-- The two digits of a byte. -/
def byteDigits (b : UInt8) : List Char := paddedDigits 2 b.toNat

/-- The two digits of every byte in order, nothing between them. -/
def ofBytes (bytes : List UInt8) : String := String.ofList (bytes.flatMap byteDigits)

@[simp] theorem toList_lower (n : Nat) : (lower n).toList = digits n := String.toList_ofList

@[simp] theorem toList_upper (n : Nat) : (upper n).toList = capitals n := String.toList_ofList

@[simp] theorem toList_padded (width n : Nat) : (padded width n).toList = paddedDigits width n :=
  String.toList_ofList

@[simp] theorem toList_ofBytes (bytes : List UInt8) :
    (ofBytes bytes).toList = bytes.flatMap byteDigits := String.toList_ofList

/-! ## Examples -/

example : padded 3 0x2a = "02a" ∧ padded 3 0x1000 = "1000" ∧ upper 0xaf = "AF" ∧ lower 0 = "0" := by
  decide

end Chip8.Hex
