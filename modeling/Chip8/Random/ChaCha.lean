/-
  A seeded generator — the ChaCha stream with twelve rounds.

  A block is sixteen 32-bit words.  Block `k` is computed from four constants, the eight words of the
  key, the 64-bit counter `k` and two zero words:
    * six double rounds mix the sixteen words, columns first and then diagonals;
    * the words they started from are added.
  The stream is block 0, block 1, … one after the other, so a generator is its key and the number of
  words already drawn.  A key is drawn from a 64-bit seed by a small generator of its own.
-/
import Chip8.Random.Source

namespace Chip8

/-- A key, and the number of words drawn so far. -/
structure ChaCha where
  key : Vector UInt32 8
  drawn : Nat
deriving DecidableEq, Repr

namespace ChaCha

/-! ## Blocks -/

/-- The sixteen words a block is mixed in. -/
abbrev Block := Vector UInt32 16

/-- Rotate a word to the left. -/
def rotateLeft (w : UInt32) (n : UInt32) : UInt32 := (w <<< n) ||| (w >>> (32 - n))

/-- Mix four words of a block. -/
def quarterRound (s : Block) (a b c d : Fin 16) : Block :=
  let s := s.setIfInBounds a (s.get a + s.get b)
  let s := s.setIfInBounds d (rotateLeft (s.get d ^^^ s.get a) 16)
  let s := s.setIfInBounds c (s.get c + s.get d)
  let s := s.setIfInBounds b (rotateLeft (s.get b ^^^ s.get c) 12)
  let s := s.setIfInBounds a (s.get a + s.get b)
  let s := s.setIfInBounds d (rotateLeft (s.get d ^^^ s.get a) 8)
  let s := s.setIfInBounds c (s.get c + s.get d)
  s.setIfInBounds b (rotateLeft (s.get b ^^^ s.get c) 7)

/-- Mix the four columns, then the four diagonals. -/
def doubleRound (s : Block) : Block :=
  let s := quarterRound s 0 4 8 12
  let s := quarterRound s 1 5 9 13
  let s := quarterRound s 2 6 10 14
  let s := quarterRound s 3 7 11 15
  let s := quarterRound s 0 5 10 15
  let s := quarterRound s 1 6 11 12
  let s := quarterRound s 2 7 8 13
  quarterRound s 3 4 9 14

/-- The words block `counter` starts from. -/
def start (key : Vector UInt32 8) (counter : UInt64) : Block :=
  #v[0x61707865, 0x3320646e, 0x79622d32, 0x6b206574,
     key[0], key[1], key[2], key[3], key[4], key[5], key[6], key[7],
     counter.toUInt32, (counter >>> 32).toUInt32, 0, 0]

/-- Block `counter` of the stream. -/
def block (key : Vector UInt32 8) (counter : UInt64) : Block :=
  let first := start key counter
  let mixed := Nat.repeat doubleRound 6 first
  Vector.zipWith (· + ·) mixed first

/-- Word `n` of the stream. -/
def wordAt (key : Vector UInt32 8) (n : Nat) : UInt32 :=
  (block key (UInt64.ofNat (n / 16)))[n % 16]

instance : WordGenerator ChaCha where
  nextWord g := (wordAt g.key g.drawn, { g with drawn := g.drawn + 1 })

/-! ## Seeds -/

/-- The next state of the generator that keys are drawn from. -/
def seedStep (s : UInt64) : UInt64 := s * 6364136223846793005 + 11634580027462260723

/-- The word a state of that generator gives — some of its bits, rotated by the top five. -/
def seedWord (s : UInt64) : UInt32 :=
  let bits := (((s >>> 18) ^^^ s) >>> 27).toUInt32
  let turn := (s >>> 59).toUInt32
  (bits >>> turn) ||| (bits <<< (32 - turn))

/-- The key drawn from a seed, a word for each step. -/
def keyOfSeed (seed : UInt64) : Vector UInt32 8 :=
  Vector.ofFn fun k : Fin 8 => seedWord (Nat.repeat seedStep (k.val + 1) seed)

/-- The generator of a seed, at the start of its stream. -/
def ofSeed (seed : UInt64) : ChaCha := ⟨keyOfSeed seed, 0⟩

/-- The generator whose key is given by its 32 bytes, low byte of each word first. -/
def ofKeyBytes (bytes : List UInt8) : ChaCha :=
  let byte (k : Nat) : UInt32 := (bytes[k]?.getD 0).toUInt32
  ⟨Vector.ofFn fun k : Fin 8 =>
    byte (4 * k) ||| byte (4 * k + 1) <<< 8 ||| byte (4 * k + 2) <<< 16 ||| byte (4 * k + 3) <<< 24,
   0⟩

end ChaCha

end Chip8
