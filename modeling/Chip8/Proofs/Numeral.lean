/-
  Hexadecimal numerals, read back.

  Addresses, bytes and register numbers are written in base sixteen, with small letters or capitals and
  with zeros in front or without.  Three facts about all of these spellings:

  1. **A numeral is read as the number it was written for** (`readDigits_digits`, `_capitals`,
     `_paddedDigits`), by the very reader that the command line uses.  So it determines the number.
  2. It consists of digits only, since the reader refuses everything else.
  3. It ends where the digits end: two texts that begin with numerals and go on with something that is
     no digit are equal only part by part (`append_inj_of_digits`).

  The induction is on the value: what is true of the single digits, and stays true when a digit is put
  at the end, is true of every numeral (`digits_induction`).
-/
import Chip8.CommandLine.Integer
import Chip8.Proofs.Blocks
import Chip8.Text.Hex

namespace Chip8

open CommandLine (Integer.digit? Integer.readDigits)

/-! ## Reading digits -/

namespace CommandLine.Integer

variable {radix bound : Nat}

/-- Reading goes on where it stopped. -/
theorem readDigits_append (cs ds : List Char) (value : Nat) :
    readDigits radix bound (cs ++ ds) value
      = (readDigits radix bound cs value).bind (readDigits radix bound ds) := by
  induction cs generalizing value with
  | nil => rfl
  | cons c cs ih =>
    rw [List.cons_append, readDigits, readDigits]
    cases digit? radix c with
    | none => rfl
    | some d =>
      dsimp only
      split
      · rfl
      · exact ih _

/-- One more digit. -/
theorem readDigits_singleton {c : Char} {d value : Nat} (hc : digit? radix c = some d)
    (hd : value * radix + d < bound) :
    readDigits radix bound [c] value = .ok (value * radix + d) := by
  rw [readDigits, hc]
  dsimp only
  rw [if_neg (Nat.not_le.mpr hd)]
  rfl

/-- What is read is made of digits. -/
theorem digit_of_readDigits {cs : List Char} {value n : Nat}
    (h : readDigits radix bound cs value = .ok n) : ∀ c ∈ cs, (digit? radix c).isSome := by
  induction cs generalizing value with
  | nil => intro c hc; cases hc
  | cons c cs ih =>
    rw [readDigits] at h
    cases hd : digit? radix c with
    | none => rw [hd] at h; cases h
    | some d =>
      rw [hd] at h
      dsimp only at h
      split at h
      · cases h
      · intro e he
        rcases List.mem_cons.mp he with rfl | he
        · rw [hd]; rfl
        · exact ih h e he

end CommandLine.Integer

open CommandLine.Integer (readDigits_append readDigits_singleton digit_of_readDigits)

namespace Hex

/-! ## The digits of a number -/

/-- What is true of the single digits, and stays true when a digit is put at the end, is true of the
digits of every number. -/
theorem digits_induction {P : Nat → List Char → Prop} (one : ∀ d < 16, P d [Nat.digitChar d])
    (more : ∀ n cs d, d < 16 → P n cs → P (n * 16 + d) (cs ++ [Nat.digitChar d])) (n : Nat) :
    P n (digits n) := by
  induction n using Nat.strongRecOn with
  | ind n ih =>
    unfold digits
    by_cases hn : n < 16
    · rw [Nat.toDigits_of_lt_base hn]
      exact one n hn
    · rw [Nat.toDigits_of_base_le (by decide) (Nat.not_lt.mp hn)]
      have hrest := more (n / 16) _ (n % 16) (Nat.mod_lt n (by decide)) (ih (n / 16) (by omega))
      rwa [Nat.div_add_mod' n 16] at hrest

theorem digits_ne_nil (n : Nat) : digits n ≠ [] := by
  refine digits_induction (P := fun _ cs => cs ≠ []) (fun d _ => ?_) (fun n cs d _ _ => ?_) n
  · exact List.cons_ne_nil _ _
  · exact List.append_ne_nil_of_right_ne_nil _ (List.cons_ne_nil _ _)

theorem capitals_ne_nil (n : Nat) : capitals n ≠ [] :=
  fun h => digits_ne_nil n (List.map_eq_nil_iff.mp h)

theorem paddedDigits_ne_nil (width n : Nat) : paddedDigits width n ≠ [] :=
  List.append_ne_nil_of_right_ne_nil _ (digits_ne_nil n)

/-! ## A numeral is read as its number -/

theorem digit?_digitChar : ∀ d < 16, Integer.digit? 16 (Nat.digitChar d) = some d := by decide

theorem digit?_toUpper : ∀ d < 16, Integer.digit? 16 (Nat.digitChar d).toUpper = some d := by decide

/-- However the single digits are spelled, the numeral is read as its number. -/
theorem readDigits_spelled (spell : Char → Char)
    (hspell : ∀ d < 16, Integer.digit? 16 (spell (Nat.digitChar d)) = some d) {bound n : Nat}
    (hn : n < bound) : Integer.readDigits 16 bound ((digits n).map spell) 0 = .ok n := by
  revert hn
  refine digits_induction
    (P := fun n cs => n < bound → Integer.readDigits 16 bound (cs.map spell) 0 = .ok n)
    (fun d hd hbound => ?_) (fun n cs d hd ih hbound => ?_) n
  · have hone := readDigits_singleton (hspell d hd) (show 0 * 16 + d < bound by omega)
    rwa [Nat.zero_mul, Nat.zero_add] at hone
  · rw [List.map_append, readDigits_append, ih (by omega)]
    exact readDigits_singleton (hspell d hd) hbound

theorem readDigits_digits {bound n : Nat} (hn : n < bound) :
    Integer.readDigits 16 bound (digits n) 0 = .ok n := by
  have h := readDigits_spelled id digit?_digitChar hn
  rwa [List.map_id] at h

theorem readDigits_capitals {bound n : Nat} (hn : n < bound) :
    Integer.readDigits 16 bound (capitals n) 0 = .ok n :=
  readDigits_spelled Char.toUpper digit?_toUpper hn

/-- Zeros in front count nothing. -/
theorem readDigits_zeros {bound : Nat} (hbound : 0 < bound) (k : Nat) :
    Integer.readDigits 16 bound (List.replicate k '0') 0 = .ok 0 := by
  induction k with
  | zero => rfl
  | succ k ih =>
    rw [List.replicate_succ', readDigits_append, ih]
    exact readDigits_singleton (show Integer.digit? 16 '0' = some 0 by decide) (by omega)

theorem readDigits_paddedDigits {bound n : Nat} (width : Nat) (hn : n < bound) :
    Integer.readDigits 16 bound (paddedDigits width n) 0 = .ok n := by
  rw [paddedDigits, readDigits_append, readDigits_zeros (by omega)]
  exact readDigits_digits hn

/-- A spelling that is read as the number it was written for determines the number. -/
theorem inj_of_readDigits {spelling : Nat → List Char}
    (hread : ∀ {bound n : Nat}, n < bound →
      Integer.readDigits 16 bound (spelling n) 0 = .ok n)
    {m n : Nat} (h : spelling m = spelling n) : m = n := by
  have hm := hread (show m < m + n + 1 by omega)
  have hn := hread (show n < m + n + 1 by omega)
  rw [h, hn] at hm
  exact (Except.ok.inj hm).symm

theorem padded_inj {width m n : Nat} (h : padded width m = padded width n) : m = n := by
  have hlist := congrArg String.toList h
  rw [toList_padded, toList_padded] at hlist
  exact inj_of_readDigits (readDigits_paddedDigits width) hlist

/-! ## A numeral ends where the digits end -/

/-- Is this character a digit, with a letter of either size? -/
def isDigit (c : Char) : Bool := (Integer.digit? 16 c).isSome

theorem isDigit_of_mem_paddedDigits {width n : Nat} {c : Char} (h : c ∈ paddedDigits width n) :
    isDigit c :=
  digit_of_readDigits (readDigits_paddedDigits width (Nat.lt_succ_self n)) c h

/-- Two texts that begin with numerals and go on with something else are equal part by part. -/
theorem append_inj_of_digits {u v rest rest' : List Char} (hu : ∀ c ∈ u, isDigit c)
    (hv : ∀ c ∈ v, isDigit c) (hrest : ∀ c ∈ rest.head?, ¬ isDigit c)
    (hrest' : ∀ c ∈ rest'.head?, ¬ isDigit c) (h : u ++ rest = v ++ rest') :
    u = v ∧ rest = rest' :=
  append_inj_of_head hu hv hrest hrest' h

end Hex

end Chip8
