/-
  Instruction words.

  A word is sixteen bits, big-endian in memory.  It is read in two ways:
    * as four hexadecimal digits, most significant first (`digits`), which is how the instruction
      formats are written;
    * as the customary fields `group`, `x`, `y`, `n`, `nn`, `nnn`, which overlap.
-/

namespace Chip8.Word

/-! ## Bytes -/

/-- The word whose high byte comes first. -/
def ofBytes (high low : UInt8) : UInt16 := UInt16.ofNat (high.toNat * 256 + low.toNat)

/-- The two bytes of a word as they lie in memory, high byte first. -/
def bytes (w : UInt16) : List UInt8 := [UInt8.ofNat (w.toNat / 256), UInt8.ofNat w.toNat]

/-! ## Digits -/

/-- The four hexadecimal digits, most significant first. -/
def digits (w : UInt16) : List Nat :=
  [w.toNat / 4096 % 16, w.toNat / 256 % 16, w.toNat / 16 % 16, w.toNat % 16]

/-- The word written with these hexadecimal digits. -/
def ofDigits (ds : List Nat) : UInt16 := UInt16.ofNat (ds.foldl (fun acc d => acc * 16 + d) 0)

/-! ## Fields -/

/-- The leading digit, which selects the group of instructions. -/
def group (w : UInt16) : UInt8 := (w >>> 12).toUInt8

/-- The second digit, most often a register number. -/
def x (w : UInt16) : Nat := ((w >>> 8) &&& 0xf).toNat

/-- The third digit, most often a register number. -/
def y (w : UInt16) : Nat := ((w >>> 4) &&& 0xf).toNat

/-- The last digit. -/
def n (w : UInt16) : UInt8 := (w &&& 0xf).toUInt8

/-- The low byte. -/
def nn (w : UInt16) : UInt8 := (w &&& 0xff).toUInt8

/-- The low three digits, most often an address. -/
def nnn (w : UInt16) : UInt16 := w &&& 0xfff

/-! ## Digits and bytes determine the word -/

/-- A word is read back from its digits. -/
theorem ofDigits_digits (w : UInt16) : ofDigits (digits w) = w := by
  have h := w.toNat_lt
  apply UInt16.toNat_inj.mp
  simp only [ofDigits, digits, List.foldl_cons, List.foldl_nil, UInt16.toNat_ofNat']
  omega

/-- A hexadecimal digit is below sixteen. -/
theorem digit_lt {w : UInt16} {d : Nat} (h : d ∈ digits w) : d < 16 := by
  simp only [digits, List.mem_cons, List.not_mem_nil, or_false] at h
  omega

/-- A word is read back from its two bytes. -/
theorem ofBytes_bytes (w : UInt16) :
    ofBytes (UInt8.ofNat (w.toNat / 256)) (UInt8.ofNat w.toNat) = w := by
  have h := w.toNat_lt
  apply UInt16.toNat_inj.mp
  simp only [ofBytes, UInt8.toNat_ofNat', UInt16.toNat_ofNat']
  omega

/-- The value of a word in terms of its bytes, the high one first. -/
theorem toNat_ofBytes (high low : UInt8) :
    (ofBytes high low).toNat = 256 * high.toNat + low.toNat := by
  have hhigh := high.toNat_lt
  have hlow := low.toNat_lt
  rw [ofBytes, UInt16.toNat_ofNat']
  omega

/-! ## Fields as numbers -/

/-- The leading digit is what is left above 4096. -/
theorem toNat_group (w : UInt16) : (group w).toNat = w.toNat / 4096 := by
  have hw := w.toNat_lt
  have hshift : (group w).toNat = w.toNat >>> 12 % 256 := by simp [group]
  rw [hshift, Nat.shiftRight_eq_div_pow]
  omega

/-- The second digit, with the shift and the mask as division and remainder. -/
theorem x_eq (w : UInt16) : x w = w.toNat / 256 % 16 := by
  have hmask := Nat.and_two_pow_sub_one_eq_mod (w.toNat >>> 8) 4
  simpa [x, Nat.shiftRight_eq_div_pow] using hmask

/-- And the third. -/
theorem y_eq (w : UInt16) : y w = w.toNat / 16 % 16 := by
  have hmask := Nat.and_two_pow_sub_one_eq_mod (w.toNat >>> 4) 4
  simpa [y, Nat.shiftRight_eq_div_pow] using hmask

theorem toNat_n (w : UInt16) : (n w).toNat = w.toNat % 16 := by
  have hmask := Nat.and_two_pow_sub_one_eq_mod w.toNat 4
  have hcut : (n w).toNat = (w.toNat &&& 2 ^ 4 - 1) % 256 := by
    simp only [n, UInt16.toNat_toUInt8, UInt16.toNat_and]
    rfl
  omega

/-- The low byte is the word modulo 256. -/
theorem toNat_nn (w : UInt16) : (nn w).toNat = w.toNat % 256 := by
  have hmask := Nat.and_two_pow_sub_one_eq_mod w.toNat 8
  have hcut : (nn w).toNat = (w.toNat &&& 2 ^ 8 - 1) % 256 := by
    simp only [nn, UInt16.toNat_toUInt8, UInt16.toNat_and]
    rfl
  omega

/-- The low three digits are the word modulo 4096. -/
theorem toNat_nnn (w : UInt16) : (nnn w).toNat = w.toNat % 4096 := by
  have hmask := Nat.and_two_pow_sub_one_eq_mod w.toNat 12
  simpa [nnn] using hmask

/-- The digits of a word are its group and its three single-digit fields. -/
theorem digits_eq (w : UInt16) : digits w = [(group w).toNat, x w, y w, (n w).toNat] := by
  have hw := w.toNat_lt
  simp only [digits, toNat_group, x_eq, y_eq, toNat_n, List.cons.injEq, and_true]
  omega

/-! ## Examples -/

example : digits 0xd12f = [0xd, 1, 2, 0xf] ∧ ofDigits [0xd, 1, 2, 0xf] = 0xd12f := by decide
example : group 0xd12f = 0xd ∧ x 0xd12f = 1 ∧ y 0xd12f = 2 ∧ n 0xd12f = 0xf := by decide
example : nn 0xd12f = 0x2f ∧ nnn 0xd12f = 0x12f ∧ ofBytes 0xd1 0x2f = 0xd12f := by decide

end Chip8.Word
