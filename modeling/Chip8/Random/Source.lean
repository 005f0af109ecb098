/-
  Sources of random bytes.

  The machine asks for one byte at a time and keeps the source that is left.  A generator of 32-bit
  words is a source too — its byte is the low byte of its next word.
-/

namespace Chip8

/-- Something that gives a byte and is then one byte further on. -/
class ByteSource (ρ : Type) where
  next : ρ → UInt8 × ρ

/-- Something that gives a 32-bit word and is then one word further on. -/
class WordGenerator (γ : Type) where
  nextWord : γ → UInt32 × γ

instance {γ : Type} [WordGenerator γ] : ByteSource γ where
  next g :=
    let (word, g) := WordGenerator.nextWord g
    (word.toUInt8, g)

namespace ByteSource

variable {ρ : Type} [ByteSource ρ]

/-- The source after `n` bytes have been drawn. -/
def skip : Nat → ρ → ρ
  | 0, r => r
  | n + 1, r => skip n (next r).2

/-- The byte number `n`, counted from zero. -/
def byteAt (r : ρ) (n : Nat) : UInt8 := (next (skip n r)).1

theorem skip_add (a b : Nat) (r : ρ) : skip (a + b) r = skip b (skip a r) := by
  induction a generalizing r with
  | zero => rw [Nat.zero_add]; rfl
  | succ a ih =>
      rw [Nat.succ_add]
      exact ih _

/-- A source further on gives what was to come. -/
theorem byteAt_skip (a b : Nat) (r : ρ) : byteAt (skip a r) b = byteAt r (a + b) := by
  rw [byteAt, byteAt, skip_add]

end ByteSource

/-! ## Scripted bytes -/

/-- A list of bytes told over and over — zeros if it is empty. -/
structure ScriptedBytes where
  bytes : Array UInt8
  told : Nat
deriving DecidableEq, Repr

namespace ScriptedBytes

/-- The script from its beginning. -/
def ofList (bytes : List UInt8) : ScriptedBytes := ⟨bytes.toArray, 0⟩

instance : ByteSource ScriptedBytes where
  next s := (s.bytes[s.told % s.bytes.size]?.getD 0, { s with told := s.told + 1 })

end ScriptedBytes

/-! ## A counter -/

/-- A number that grows by the same amount with every word. -/
structure Stepper where
  value : UInt64
  increment : UInt64
deriving DecidableEq, Repr

instance : WordGenerator Stepper where
  nextWord s := (s.value.toUInt32, { s with value := s.value + s.increment })

/-! ## Examples -/

example : ByteSource.byteAt (ScriptedBytes.ofList [1, 2]) 3 = 2 := by decide
example : ByteSource.byteAt (Stepper.mk 250 7) 1 = 1 := by decide

end Chip8
