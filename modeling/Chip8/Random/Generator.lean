/-
  The choice of a source.

  A machine may be handed a script, a counter or the seeded stream; `Generator` is any of the three.
-/
import Chip8.Random.ChaCha

namespace Chip8

/-- Any of the sources of random bytes. -/
inductive Generator where
  | script (bytes : ScriptedBytes)
  | stepper (counter : Stepper)
  | stream (generator : ChaCha)
deriving DecidableEq, Repr

instance : ByteSource Generator where
  next
    | .script s => let (b, s) := ByteSource.next s; (b, .script s)
    | .stepper s => let (b, s) := ByteSource.next s; (b, .stepper s)
    | .stream s => let (b, s) := ByteSource.next s; (b, .stream s)

end Chip8
