/-
  Arithmetic.

  `Machine.perform` computes with bytes that wrap around and compares them for the flag.  The rows below
  say what comes out in ordinary numbers: with `a` and `b` for the bytes in vX and vY, an addition leaves
  a byte `r` in vX and a carry `f` in vF with `r + 256 * f = a + b`, and so on.  One equation fixes both
  the byte and the flag, because a number has one remainder and one quotient.

  1. **Registers** (`get_setV`, `get_setResult`).  The flag is written after the byte, so it wins where X
     is F.  Whichever of X, Y and F are the same register, `a` and `b` are read before.
  2. **One law for the flag-setting words** (`flagged_iff`).  If the equation of a row has the computed
     byte and flag as its only solution, the row is exact.
  3. **The rows are exact** (`arithmetic_iff`), for every machine.  With Table's they cover all words but
     the sprites.
  4. **An addition and a subtraction undo each other** (`undone`), for the two equations add up: what the
     first carries over 256 the second takes back, and its flag is the opposite one.
-/
import Chip8.Proofs.Table

namespace Chip8.Machine

variable {ρ : Type}

/-! ## The rows -/

/-- Afterwards vF holds a flag, vX a byte unless it is vF itself, and nothing else is changed. -/
def Flagged (m : Machine ρ) (x : Fin 16) (byte flag : Nat) (o : Outcome (Machine ρ)) : Prop :=
  byte ≤ 255 ∧ flag ≤ 1 ∧ ∃ n, o = .done n ∧ (n.v.get (Fin.last 15)).toNat = flag
    ∧ (x ≠ Fin.last 15 → (n.v.get x).toNat = byte)
    ∧ (∀ r, r ≠ x → r ≠ Fin.last 15 → n.v.get r = m.v.get r) ∧ n = { m with v := n.v }

/-- Rows of the leading digit 8, with `a` for the byte in vX and `b` for the byte in vY. -/
def ArithmeticRow (m : Machine ρ) (w : UInt16) (o : Outcome (Machine ρ)) : Prop :=
  let x := Word.regX w
  let a := (m.v.get x).toNat
  let b := (m.v.get (Word.regY w)).toNat
  match (Word.n w).toNat with
  | 0x0 => m.Puts x b o
  | 0x1 => m.Puts x (a ||| b) o
  | 0x2 => m.Puts x (a &&& b) o
  | 0x3 => m.Puts x (a ^^^ b) o
  | 0x4 => ∃ r f, r + 256 * f = a + b ∧ m.Flagged x r f o
  | 0x5 => ∃ r f, r + 256 * f = a + 256 - b ∧ m.Flagged x r f o
  | 0x6 => ∃ r f, 2 * r + f = a ∧ m.Flagged x r f o
  | 0x7 => ∃ r f, r + 256 * f = b + 256 - a ∧ m.Flagged x r f o
  | 0xe => ∃ r f, r + 256 * f = 2 * a ∧ m.Flagged x r f o
  | _ => m.Unlisted w o

/-! ## Every row is exact -/

section Exact

variable {m : Machine ρ} {w : UInt16} {o : Outcome (Machine ρ)} {x : Fin 16}

/-- A flag-setting word does what its equation says, if the computed byte and flag are its solution and
there is no other. -/
theorem flagged_iff (law : Nat → Nat → Prop) {b f : UInt8}
    (hlaw : ∀ r g, r ≤ 255 → g ≤ 1 → (law r g ↔ r = b.toNat ∧ g = f.toNat)) (hf : f.toNat ≤ 1) :
    Outcome.done (m.setResult x b f) = o ↔ ∃ r g, law r g ∧ m.Flagged x r g o := by
  have hb : b.toNat ≤ 255 := Nat.le_of_lt_succ b.toNat_lt
  constructor
  · rintro rfl
    refine ⟨_, _, (hlaw _ _ hb hf).mpr ⟨rfl, rfl⟩, hb, hf, _, rfl, ?_, fun (hx : x ≠ 15) => ?_,
      fun r hx (hr : r ≠ 15) => ?_, rfl⟩
    · show ((m.setResult x b f).v.get 15).toNat = f.toNat
      rw [get_setResult, if_pos rfl]
    · rw [get_setResult, if_neg hx, if_pos rfl]
    · rw [get_setResult, if_neg hr, if_neg hx]
  · rintro ⟨r, g, hrow, hr, hg, n, rfl, hflag, hx, hothers, hrest⟩
    obtain ⟨rfl, rfl⟩ := (hlaw r g hr hg).mp hrow
    have hv : n.v = (m.setResult x b f).v := by
      refine registers_ext fun k => ?_
      rw [get_setResult]
      by_cases hk : k = 15
      · rw [if_pos hk, hk]
        exact UInt8.toNat_inj.mp hflag
      · rw [if_neg hk]
        by_cases hkx : k = x
        · subst hkx
          rw [if_pos rfl]
          exact UInt8.toNat_inj.mp (hx hk)
        · rw [if_neg hkx, hothers k hkx hk]
    rw [hrest, hv]
    rfl

theorem toNat_flagOf (condition : Bool) : (flagOf condition).toNat = condition.toNat := by
  cases condition <;> rfl

/-! ### The bytes and flags that are computed -/

theorem add_law (a b : UInt8) :
    (a + b).toNat + 256 * (flagOf (256 ≤ a.toNat + b.toNat)).toNat = a.toNat + b.toNat := by
  have ha := a.toNat_lt
  have hb := b.toNat_lt
  rw [UInt8.toNat_add, toNat_flagOf]
  by_cases h : 256 ≤ a.toNat + b.toNat
  · rw [decide_eq_true h, Bool.toNat_true]
    omega
  · rw [decide_eq_false h, Bool.toNat_false]
    omega

/-- The flag of a subtraction is one if nothing has to be borrowed. -/
theorem subtract_law (a b : UInt8) :
    (a - b).toNat + 256 * (flagOf (b ≤ a)).toNat = a.toNat + 256 - b.toNat := by
  have ha := a.toNat_lt
  have hb := b.toNat_lt
  rw [UInt8.toNat_sub, toNat_flagOf]
  by_cases h : b.toNat ≤ a.toNat
  · rw [decide_eq_true (UInt8.le_iff_toNat_le.mpr h), Bool.toNat_true]
    omega
  · rw [decide_eq_false fun hle => h (UInt8.le_iff_toNat_le.mp hle), Bool.toNat_false]
    omega

theorem toNat_low_bit (a : UInt8) : (a &&& 1).toNat = a.toNat % 2 := by
  rw [UInt8.toNat_and]
  exact Nat.and_one_is_mod _

theorem toNat_high_bit (a : UInt8) : (a >>> 7).toNat = a.toNat / 128 := by
  rw [UInt8.toNat_shiftRight]
  exact Nat.shiftRight_eq_div_pow _ 7

theorem toNat_low_bit_le (a : UInt8) : (a &&& 1).toNat ≤ 1 := by
  rw [toNat_low_bit]
  omega

theorem toNat_high_bit_le (a : UInt8) : (a >>> 7).toNat ≤ 1 := by
  have ha := a.toNat_lt
  rw [toNat_high_bit]
  omega

theorem shiftRight_law (a : UInt8) : 2 * (a >>> 1).toNat + (a &&& 1).toNat = a.toNat := by
  have hhalf : (a >>> 1).toNat = a.toNat / 2 := by
    rw [UInt8.toNat_shiftRight]
    exact Nat.shiftRight_eq_div_pow _ 1
  rw [hhalf, toNat_low_bit]
  omega

theorem shiftLeft_law (a : UInt8) : (a <<< 1).toNat + 256 * (a >>> 7).toNat = 2 * a.toNat := by
  have hdouble : (a <<< 1).toNat = a.toNat * 2 % 256 := by
    rw [UInt8.toNat_shiftLeft]
    exact congrArg (· % 256) (Nat.shiftLeft_eq _ 1)
  have ha := a.toNat_lt
  rw [hdouble, toNat_high_bit]
  omega

/-- A sum of 256 flags and a byte tells both. -/
theorem carried_iff {b f : UInt8} {total : Nat} (htotal : b.toNat + 256 * f.toNat = total)
    (hf : f.toNat ≤ 1) : Outcome.done (m.setResult x b f) = o
      ↔ ∃ r g, r + 256 * g = total ∧ m.Flagged x r g o := by
  have hb := b.toNat_lt
  refine flagged_iff (fun r g => r + 256 * g = total) (fun r g hr _ => ?_) hf
  omega

/-- So does twice a byte and a flag. -/
theorem halved_iff {b f : UInt8} {total : Nat} (htotal : 2 * b.toNat + f.toNat = total)
    (hf : f.toNat ≤ 1) : Outcome.done (m.setResult x b f) = o
      ↔ ∃ r g, 2 * r + g = total ∧ m.Flagged x r g o := by
  refine flagged_iff (fun r g => 2 * r + g = total) (fun r g _ hg => ?_) hf
  omega

theorem toNat_flagOf_le (condition : Bool) : (flagOf condition).toNat ≤ 1 := by
  rw [toNat_flagOf]
  exact Bool.toNat_le condition

/-! ### The words -/

variable [ByteSource ρ]

/-- The words that begin with 8 end in 0 to 7 or E, or are unknown. -/
theorem unlisted_iff_of_arithmetic (hg : (Word.group w).toNat = 0x8)
    (hn : (Word.n w).toNat ∉ [0, 1, 2, 3, 4, 5, 6, 7, 0xe]) : m.executeWord w = o ↔ m.Unlisted w o := by
  simp only [List.mem_cons, List.not_mem_nil, or_false, not_or] at hn
  refine unlisted_iff fun op => ?_
  rw [Word.digits_eq, hg]
  cases op <;> simp [Opcode.format, Format.accepts] <;> omega

/-- **The rows are exact**, on every machine. -/
theorem arithmetic_iff (hg : (Word.group w).toNat = 0x8) :
    m.executeWord w = o ↔ m.ArithmeticRow w o := by
  unfold ArithmeticRow
  dsimp only
  split
  case h_1 hn =>
    rw [executeWord_of_group m .copy hg (by rw [hn]; rfl)]
    simp only [Opcode.instruction, Word.field, perform, withRegister_of_lt (Word.x_lt w),
      withRegister_of_lt (Word.y_lt w)]
    exact puts_iff rfl
  case h_2 hn =>
    rw [executeWord_of_group m .bitOr hg (by rw [hn]; rfl)]
    simp only [Opcode.instruction, Word.field, perform, withRegister_of_lt (Word.x_lt w),
      withRegister_of_lt (Word.y_lt w)]
    exact puts_iff (UInt8.toNat_or ..)
  case h_3 hn =>
    rw [executeWord_of_group m .bitAnd hg (by rw [hn]; rfl)]
    simp only [Opcode.instruction, Word.field, perform, withRegister_of_lt (Word.x_lt w),
      withRegister_of_lt (Word.y_lt w)]
    exact puts_iff (UInt8.toNat_and ..)
  case h_4 hn =>
    rw [executeWord_of_group m .bitXor hg (by rw [hn]; rfl)]
    simp only [Opcode.instruction, Word.field, perform, withRegister_of_lt (Word.x_lt w),
      withRegister_of_lt (Word.y_lt w)]
    exact puts_iff (UInt8.toNat_xor ..)
  case h_5 hn =>
    rw [executeWord_of_group m .add hg (by rw [hn]; rfl)]
    simp only [Opcode.instruction, Word.field, perform, withRegister_of_lt (Word.x_lt w),
      withRegister_of_lt (Word.y_lt w)]
    exact carried_iff (add_law _ _) (toNat_flagOf_le _)
  case h_6 hn =>
    rw [executeWord_of_group m .subtract hg (by rw [hn]; rfl)]
    simp only [Opcode.instruction, Word.field, perform, withRegister_of_lt (Word.x_lt w),
      withRegister_of_lt (Word.y_lt w)]
    exact carried_iff (subtract_law _ _) (toNat_flagOf_le _)
  case h_7 hn =>
    rw [executeWord_of_group m .shiftRight hg (by rw [hn]; rfl)]
    simp only [Opcode.instruction, Word.field, perform, withRegister_of_lt (Word.x_lt w)]
    exact halved_iff (shiftRight_law _) (toNat_low_bit_le _)
  case h_8 hn =>
    rw [executeWord_of_group m .subtractFrom hg (by rw [hn]; rfl)]
    simp only [Opcode.instruction, Word.field, perform, withRegister_of_lt (Word.x_lt w),
      withRegister_of_lt (Word.y_lt w)]
    exact carried_iff (subtract_law _ _) (toNat_flagOf_le _)
  case h_9 hn =>
    rw [executeWord_of_group m .shiftLeft hg (by rw [hn]; rfl)]
    simp only [Opcode.instruction, Word.field, perform, withRegister_of_lt (Word.x_lt w)]
    exact carried_iff (shiftLeft_law _) (toNat_high_bit_le _)
  case h_10 h0 h1 h2 h3 h4 h5 h6 h7 he =>
    refine unlisted_iff_of_arithmetic hg ?_
    simp only [List.mem_cons, List.not_mem_nil, or_false, not_or]
    exact ⟨h0, h1, h2, h3, h4, h5, h6, h7, he⟩

theorem flagged_add (m : Machine ρ) (hg : (Word.group w).toNat = 0x8) (hn : Word.n w = 4) :
    ∃ r f, r + 256 * f = (m.v.get (Word.regX w)).toNat + (m.v.get (Word.regY w)).toNat
      ∧ m.Flagged (Word.regX w) r f (m.executeWord w) := by
  have hrow : m.ArithmeticRow w (m.executeWord w) := (arithmetic_iff hg).mp rfl
  unfold ArithmeticRow at hrow
  rw [hn] at hrow
  exact hrow

theorem flagged_subtract (m : Machine ρ) (hg : (Word.group w).toNat = 0x8) (hn : Word.n w = 5) :
    ∃ r f, r + 256 * f = (m.v.get (Word.regX w)).toNat + 256 - (m.v.get (Word.regY w)).toNat
      ∧ m.Flagged (Word.regX w) r f (m.executeWord w) := by
  have hrow : m.ArithmeticRow w (m.executeWord w) := (arithmetic_iff hg).mp rfl
  unfold ArithmeticRow at hrow
  rw [hn] at hrow
  exact hrow

end Exact

/-! ## Addition and subtraction undo each other -/

/-- Two flag-setting words on the same register cancel if what they carry adds up to 256. -/
theorem restored {m n : Machine ρ} {x : Fin 16} {r f r' f' : Nat} {o : Outcome (Machine ρ)}
    (hx : x ≠ 15) (hfirst : m.Flagged x r f (.done n)) (hsecond : n.Flagged x r' f' o)
    (hsum : r' + 256 * f' + 256 * f = (m.v.get x).toNat + 256) :
    ∃ n', o = .done n' ∧ n'.v.get x = m.v.get x ∧ (n'.v.get 15).toNat = 1 - (n.v.get 15).toNat
      ∧ (∀ k, k ≠ 15 → n'.v.get k = m.v.get k) ∧ n' = { m with v := n'.v } := by
  obtain ⟨-, hf, k, hk, (hflag : (k.v.get 15).toNat = f), -, hothers, hrest⟩ := hfirst
  obtain rfl := Outcome.done.inj hk
  obtain ⟨hr', hf', n', rfl, (hflag' : (n'.v.get 15).toNat = f'), hbyte', hothers', hrest'⟩ := hsecond
  have ha := (m.v.get x).toNat_lt
  have hbyte : n'.v.get x = m.v.get x := by
    apply UInt8.toNat_inj.mp
    rw [hbyte' hx]
    omega
  refine ⟨n', rfl, hbyte, by omega, fun k hk => ?_, ?_⟩
  · by_cases hkx : k = x
    · rw [hkx, hbyte]
    · rw [hothers' k hkx hk, hothers k hkx hk]
  · rw [hrest', hrest]

/-- The second of two flag-setting words works on what the first left in vX, and on the old vY. -/
theorem undone_of_laws {m : Machine ρ} {x y : Fin 16} {o : Outcome (Machine ρ)}
    {next : Machine ρ → Outcome (Machine ρ)} (law law' : Nat → Nat → Nat) (hxy : x ≠ y) (hx : x ≠ 15)
    (hy : y ≠ 15)
    (hfirst : ∃ r f, r + 256 * f = law (m.v.get x).toNat (m.v.get y).toNat ∧ m.Flagged x r f o)
    (hsecond : ∀ n : Machine ρ, ∃ r f,
      r + 256 * f = law' (n.v.get x).toNat (n.v.get y).toNat ∧ n.Flagged x r f (next n))
    (hlaws : ∀ a b r f, b < 256 → r + 256 * f = law a b → law' r b + 256 * f = a + 256) :
    ∃ n n', o = .done n ∧ next n = .done n' ∧ n'.v.get x = m.v.get x
      ∧ (n'.v.get 15).toNat = 1 - (n.v.get 15).toNat
      ∧ (∀ r, r ≠ 15 → n'.v.get r = m.v.get r) ∧ n' = { m with v := n'.v } := by
  obtain ⟨r, f, hlaw, hflagged⟩ := hfirst
  obtain ⟨-, -, n, rfl, -, hbyte, hothers, -⟩ := id hflagged
  obtain ⟨r', f', hlaw', hflagged'⟩ := hsecond n
  rw [hbyte hx, hothers y hxy.symm hy] at hlaw'
  have hsum := hlaws _ _ r f (m.v.get y).toNat_lt hlaw
  rw [← hlaw'] at hsum
  obtain ⟨n', hdone, hrestored⟩ := restored hx hflagged hflagged' hsum
  exact ⟨n, n', rfl, hdone, hrestored⟩

section Undone

variable [ByteSource ρ] {w w' : UInt16}

theorem undone (m : Machine ρ) (hg : (Word.group w).toNat = 0x8) (hg' : (Word.group w').toNat = 0x8)
    (hx : Word.regX w' = Word.regX w) (hy : Word.regY w' = Word.regY w)
    (hn : Word.n w = 4 ∧ Word.n w' = 5 ∨ Word.n w = 5 ∧ Word.n w' = 4)
    (hxy : Word.regX w ≠ Word.regY w) (hxf : Word.regX w ≠ 15) (hyf : Word.regY w ≠ 15) :
    ∃ n n', m.executeWord w = .done n ∧ n.executeWord w' = .done n'
      ∧ n'.v.get (Word.regX w) = m.v.get (Word.regX w)
      ∧ (n'.v.get 15).toNat = 1 - (n.v.get 15).toNat
      ∧ (∀ r, r ≠ 15 → n'.v.get r = m.v.get r) ∧ n' = { m with v := n'.v } := by
  rcases hn with ⟨hadd, hsubtract⟩ | ⟨hsubtract, hadd⟩
  · have hsecond := fun n : Machine ρ => flagged_subtract n hg' hsubtract
    rw [hx, hy] at hsecond
    refine undone_of_laws (fun a b => a + b) (fun a b => a + 256 - b) hxy hxf hyf
      (flagged_add m hg hadd) hsecond fun a b r f hb hsum => ?_
    show r + 256 - b + 256 * f = a + 256
    omega
  · have hsecond := fun n : Machine ρ => flagged_add n hg' hadd
    rw [hx, hy] at hsecond
    refine undone_of_laws (fun a b => a + 256 - b) (fun a b => a + b) hxy hxf hyf
      (flagged_subtract m hg hsubtract) hsecond fun a b r f hb hdifference => ?_
    show r + b + 256 * f = a + 256
    omega

/-- **Arithmetic.**  On every machine, whatever X and Y are,
  * a word that begins with 8 does exactly what its row says;
  * if X, Y and F are three registers, `8xy4` and `8xy5` one after the other, in either order, leave all
    of the machine as it was but for vF, where the second flag is the opposite of the first. -/
theorem arithmetic_exact (m : Machine ρ) (hg : Word.group w = 0x8) :
    (∀ o, m.executeWord w = o ↔ m.ArithmeticRow w o)
    ∧ ∀ w', Word.group w' = 0x8 → Word.regX w' = Word.regX w → Word.regY w' = Word.regY w →
      Word.n w = 4 ∧ Word.n w' = 5 ∨ Word.n w = 5 ∧ Word.n w' = 4 →
      Word.regX w ≠ Word.regY w → Word.regX w ≠ 15 → Word.regY w ≠ 15 →
      ∃ n n', m.executeWord w = .done n ∧ n.executeWord w' = .done n'
        ∧ n'.v.get (Word.regX w) = m.v.get (Word.regX w)
        ∧ (n'.v.get 15).toNat = 1 - (n.v.get 15).toNat
        ∧ (∀ r, r ≠ 15 → n'.v.get r = m.v.get r) ∧ n' = { m with v := n'.v } := by
  have hg8 : (Word.group w).toNat = 0x8 := congrArg UInt8.toNat hg
  refine ⟨fun o => arithmetic_iff hg8, fun w' hg' hx hy hn hxy hxf hyf => ?_⟩
  exact undone m hg8 (congrArg UInt8.toNat hg') hx hy hn hxy hxf hyf

/-- 200 and 100 carry over 256, and taking 100 away again borrows. -/
theorem arithmetic_exact_carry :
    let m : Machine Stepper :=
      { powerOn (Stepper.mk 0 1) with v := ((Vector.replicate 16 0).set 1 200).set 2 100 }
    Word.group 0x8124 = 0x8 ∧ Word.group 0x8125 = 0x8 ∧ m.ArithmeticRow 0x8124 (m.executeWord 0x8124)
    ∧ ∃ n n', m.executeWord 0x8124 = .done n ∧ n.executeWord 0x8125 = .done n'
      ∧ n'.v.get 1 = 200 ∧ (n.v.get 15).toNat = 1 ∧ (n'.v.get 15).toNat = 0 := by
  intro m
  obtain ⟨hrow, hundone⟩ := arithmetic_exact m (w := 0x8124) (by decide)
  obtain ⟨n, n', hdone, hdone', hbyte, hflag, -, -⟩ := hundone 0x8125 (by decide) (by decide)
    (by decide) (.inl (by decide)) (by decide) (by decide) (by decide)
  have hcarry : (n.v.get 15).toNat = 1 := by
    have hadd : Instruction.ofWord? 0x8124 = some (.add 1 2) := by decide
    rw [executeWord, hadd] at hdone
    rw [← Outcome.done.inj hdone]
    rfl
  refine ⟨by decide, by decide, (hrow _).mp rfl, n, n', hdone, hdone', hbyte, hcarry, ?_⟩
  rw [hflag, hcarry]

end Undone

end Chip8.Machine
