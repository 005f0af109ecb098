/-
  Every random byte is accounted for.

  The source of random bytes lies outside of the program's reach, and of everything else's: nothing but an
  instruction moves it on (`inner_random`), and of the instructions only `random` does.
  1. **One instruction.**  `random` takes the next byte, whatever its mask (`Deed.draws_random`); the
     others leave the source as it is (`Deed.random_eq`).
  2. **A history.**  So the deeds that draw (`drawing`) stand to the source as its first bytes: each
     finds the source as many bytes further on as there were such deeds before it, and behind the last one
     the source is further on by their number (`Leads.drawn`).
-/
import Chip8.Proofs.Deeds

namespace Chip8

/-! ## Words as bytes -/

namespace WordGenerator

variable {γ : Type} [WordGenerator γ]

/-- The generator after `n` words have been drawn. -/
def skip : Nat → γ → γ
  | 0, g => g
  | n + 1, g => skip n (nextWord g).2

/-- The word number `n`, counted from zero. -/
def wordAt (g : γ) (n : Nat) : UInt32 := (nextWord (skip n g)).1

theorem byteSource_skip (n : Nat) (g : γ) : ByteSource.skip n g = skip n g := by
  induction n generalizing g with
  | zero => rfl
  | succ n ih => exact ih (nextWord g).2

/-- The bytes of a generator are the low bytes of its words. -/
theorem toNat_byteAt (g : γ) (n : Nat) :
    (ByteSource.byteAt g n).toNat = (wordAt g n).toNat % 256 := by
  show (nextWord (ByteSource.skip n g)).1.toUInt8.toNat = _
  rw [byteSource_skip]
  exact UInt32.toNat_toUInt8 _

end WordGenerator

variable {ρ : Type} [ByteSource ρ]

/-! ## One instruction -/

/-- Does the instruction draw a random byte? -/
def Instruction.isRandom : Instruction → Bool
  | random .. => true
  | _ => false

namespace Deed

variable {d : Deed ρ}

/-- A deed that draws takes the next byte, and puts what the mask keeps of it into the register. -/
theorem draws_random {x : Nat} {mask : UInt8} (hi : d.instruction = .random x mask) :
    d.after.random = (ByteSource.next d.before.random).2
    ∧ d.after.v[x]? = some ((ByteSource.next d.before.random).1 &&& mask) := by
  have hdone := d.done
  rw [hi] at hdone
  by_cases hx : x < 16
  · simp only [Machine.perform, Machine.withRegister_of_lt hx] at hdone
    rw [← Outcome.done.inj hdone]
    exact ⟨rfl, Vector.getElem?_set_self hx⟩
  · simp only [Machine.perform, Machine.withRegister, dif_neg hx] at hdone
    cases hdone

/-- Any other leaves the source alone. -/
theorem random_eq (hi : d.instruction.isRandom = false) : d.after.random = d.before.random := by
  have hpart : Part.random ∉ d.instruction.opcode.writes := by
    intro hmem
    cases hinstruction : d.instruction with
    | random x mask =>
      rw [hinstruction] at hi
      cases hi
    | _ =>
      rw [hinstruction] at hmem
      simp [Instruction.opcode, Opcode.writes] at hmem
  have hsame : (d.before.perform d.instruction).state.random = d.before.random :=
    Machine.part_perform d.before hpart
  rwa [d.done] at hsame

end Deed

/-- A deed that draws is that of a `random`. -/
theorem Instruction.eq_random {i : Instruction} (h : i.isRandom = true) :
    ∃ x mask, i = .random x mask := by
  cases i with
  | random x mask => exact ⟨x, mask, rfl⟩
  | _ => cases h

/-! ## A history -/

/-- The deeds that draw a random byte. -/
def drawing (log : List (Deed ρ)) : List (Deed ρ) := log.filter (·.instruction.isRandom)

theorem drawing_append (log log' : List (Deed ρ)) :
    drawing (log ++ log') = drawing log ++ drawing log' :=
  List.filter_append ..

/-- **Deeds draw the bytes of the source one after the other.** -/
theorem Leads.drawn {r s : ρ} {log : List (Deed ρ)} (h : Leads Machine.random r log s) :
    s = ByteSource.skip (drawing log).length r
    ∧ ∀ k d, (drawing log)[k]? = some d → d.before.random = ByteSource.skip k r := by
  induction log generalizing r with
  | nil =>
    have hend : r = s := h
    exact ⟨hend.symm, fun k d hd => nomatch List.getElem?_nil.symm.trans hd⟩
  | cons d log ih =>
    obtain ⟨hbegin, hrest⟩ := h
    obtain ⟨hend, hothers⟩ := ih hrest
    cases hi : d.instruction.isRandom with
    | false =>
      have hskipped : drawing (d :: log) = drawing log :=
        List.filter_cons_of_neg (by simp [hi])
      rw [hskipped, ← hbegin, ← Deed.random_eq hi]
      exact ⟨hend, hothers⟩
    | true =>
      have hkept : drawing (d :: log) = d :: drawing log :=
        List.filter_cons_of_pos hi
      obtain ⟨x, mask, hinstruction⟩ := Instruction.eq_random hi
      have hnext : d.after.random = (ByteSource.next r).2 := by
        rw [(Deed.draws_random hinstruction).1, hbegin]
      -- This deed took the first byte, so the k-th of the others is the one after the k-th.
      rw [hnext] at hend hothers
      rw [hkept]
      refine ⟨hend, fun k d' hd => ?_⟩
      cases k with
      | zero =>
        obtain rfl := Option.some.inj hd
        exact hbegin
      | succ k => exact hothers k d' hd

/-- **A run draws one byte for each `random` that it carries out, and for nothing else.**  Take what was
done in a history since power-on.
  * The source is as many bytes further on as there were such instructions, whatever their masks.
  * The k-th of them finds the source after k bytes, takes the next one, and puts what its mask keeps of
    that byte into its register.
  * Any other instruction leaves the source, and so does a step or a word that fails, a step that is
    held, and whatever is not an instruction; an operation moves the source on by what comes of it.
  * The bytes of a generator of words are the low bytes of its words. -/
theorem one_byte_each (r : ρ) (history : List Operation) :
    let log := (Machine.powerOn r).deeds history
    let m := (Machine.powerOn r).after history
    m.random = ByteSource.skip (drawing log).length r
    ∧ (∀ k d, (drawing log)[k]? = some d → ∃ x mask, d.instruction = .random x mask
      ∧ d.before.random = ByteSource.skip k r ∧ d.after.random = ByteSource.skip (k + 1) r
      ∧ d.after.v[x]? = some (ByteSource.byteAt r k &&& mask))
    ∧ (∀ d ∈ log, d.instruction.isRandom = false → d.after.random = d.before.random)
    ∧ (∀ op : Operation, (op.apply m).state.random
      = ByteSource.skip (drawing (op.deeds m)).length m.random)
    ∧ (∀ fault n, (m.step = .failed fault n ∨ ∃ w, m.executeWord w = .failed fault n) →
      n.random = m.random)
    ∧ (m.switches.paused = true → ∀ k, (Machine.steps k m).state.random = m.random)
    ∧ Inner (Machine.random : Machine ρ → ρ)
    ∧ ∀ {γ : Type} [WordGenerator γ] (g : γ) (k : Nat),
      (ByteSource.byteAt g k).toNat = (WordGenerator.wordAt g k).toNat % 256 := by
  intro log m
  have hpower : (Machine.powerOn r).Sized := Machine.sized_powerOn r
  have hm : m.Sized := Machine.Reachable.sized ⟨r, history, rfl⟩
  obtain ⟨hend, hbefore⟩ := (inner_random.leads_history hpower history).drawn
  refine ⟨hend, fun k d hd => ?_, fun d _ hi => Deed.random_eq hi, fun op => ?_, ?_, ?_,
    inner_random, WordGenerator.toNat_byteAt⟩
  · have hmem : d ∈ drawing log := List.mem_of_getElem? hd
    obtain ⟨x, mask, hinstruction⟩ := Instruction.eq_random (List.mem_filter.mp hmem).2
    obtain ⟨hsource, hregister⟩ := Deed.draws_random hinstruction
    rw [hbefore k d hd] at hsource hregister
    refine ⟨x, mask, hinstruction, hbefore k d hd, ?_, hregister⟩
    rw [hsource, ByteSource.skip_add]
    rfl
  · exact (inner_random.leads_apply hm op).drawn.1
  · rintro fault n (hstep | ⟨w, hword⟩)
    · have hleads := leads_step inner_random.advance hm
      rw [Machine.deedsOfStep_of_failed hstep, hstep] at hleads
      exact Eq.symm hleads
    · rw [(Machine.clean_executeWord hm w fault n hword).2]
  · intro hpaused k
    rw [Machine.steps_of_paused hpaused]
    rfl

/-- The bytes 250, 1 and 8 are drawn, with a word in between that draws none.  The second is masked out, and
is gone all the same. -/
theorem one_byte_each_masked :
    let r := Stepper.mk 250 7
    let history : List Operation :=
      [.executeWord 0xc0ff, .executeWord 0x6007, .executeWord 0xc100, .executeWord 0xc2ff]
    let log := (Machine.powerOn r).deeds history
    log.map (·.instruction) = [.random 0 0xff, .setByte 0 7, .random 1 0, .random 2 0xff]
    ∧ ((Machine.powerOn r).after history).random = ByteSource.skip 3 r
    ∧ (∃ d, (drawing log)[0]? = some d ∧ d.after.v[0]? = some 250)
    ∧ (∃ d, (drawing log)[1]? = some d ∧ d.after.v[1]? = some 0)
    ∧ ∃ d, (drawing log)[2]? = some d ∧ d.after.v[2]? = some 8 := by
  intro r history log
  let start : Machine Stepper := Machine.powerOn r
  let first : Machine Stepper := { start.setV 0 (ByteSource.byteAt r 0 &&& 0xff) with
    random := ByteSource.skip 1 r }
  let other : Machine Stepper := first.setV 0 7
  let second : Machine Stepper := { other.setV 1 (ByteSource.byteAt r 1 &&& 0) with
    random := ByteSource.skip 2 r }
  let third : Machine Stepper := { second.setV 2 (ByteSource.byteAt r 2 &&& 0xff) with
    random := ByteSource.skip 3 r }
  have hfirst : start.perform (.random 0 0xff) = .done first := rfl
  have hother : first.perform (.setByte 0 7) = .done other := rfl
  have hsecond : other.perform (.random 1 0) = .done second := rfl
  have hthird : second.perform (.random 2 0xff) = .done third := rfl
  have hlog : log = [⟨start, _, first, hfirst⟩, ⟨first, _, other, hother⟩,
      ⟨other, _, second, hsecond⟩, ⟨second, _, third, hthird⟩] := by
    show start.deeds history = _
    rw [(Machine.after_word (by decide) hfirst _).2, (Machine.after_word (by decide) hother _).2,
      (Machine.after_word (by decide) hsecond _).2, (Machine.after_word (by decide) hthird _).2]
    rfl
  have hdrawing : drawing log = [⟨start, _, first, hfirst⟩, ⟨other, _, second, hsecond⟩,
      ⟨second, _, third, hthird⟩] := by
    rw [hlog]
    rfl
  obtain ⟨hend, hdrawn, -⟩ := one_byte_each r history
  have hend : ((Machine.powerOn r).after history).random = ByteSource.skip (drawing log).length r := hend
  have hput : ∀ k (d : Deed Stepper) x mask b, (drawing log)[k]? = some d →
      d.instruction = .random x mask → ByteSource.byteAt r k &&& mask = b → d.after.v[x]? = some b := by
    intro k d x mask b hd hi hb
    obtain ⟨x', mask', hi', -, -, hv⟩ := hdrawn k d hd
    obtain ⟨rfl, rfl⟩ := Instruction.random.inj (hi.symm.trans hi')
    rw [hv, hb]
  rw [hdrawing] at hend hput ⊢
  refine ⟨?_, hend, ⟨_, rfl, hput 0 _ 0 0xff 250 rfl rfl (by decide)⟩,
    ⟨_, rfl, hput 1 _ 1 0 0 rfl rfl (by decide)⟩, ⟨_, rfl, hput 2 _ 2 0xff 8 rfl rfl (by decide)⟩⟩
  rw [hlog]
  rfl

end Chip8
