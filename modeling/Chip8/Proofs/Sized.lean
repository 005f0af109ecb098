/-
  Machines of the right size.

  A machine that was switched on, and not read in from outside, has a memory of 4096 bytes, a screen of
  2048 pixels and at most sixteen live frames.  These sizes are the whole invariant (`Machine.Sized`):
    * nothing a program does changes them (`sized_perform`, `sized_steps`);
    * with them, a decoded instruction that fails has found an error and has changed nothing
      (`clean_perform`) — what can fail is checked before anything is written.
-/
import Chip8.Proofs.Format
import Chip8.Proofs.Writes

namespace Chip8

/-! ## Failing cleanly -/

namespace Outcome

variable {σ : Type}

/-- If the operation failed, it found an error and left the state it was given. -/
def Clean (s : σ) (o : Outcome σ) : Prop :=
  ∀ fault t, o = .failed fault t → (∃ e, fault = .error e) ∧ t = s

theorem clean_done {s t : σ} : (done t).Clean s := by
  intro fault u h
  cases h

theorem clean_error {s : σ} {e : Error} : (failed (.error e) s).Clean s := by
  intro fault t h
  cases h
  exact ⟨⟨e, rfl⟩, rfl⟩

end Outcome

/-! ## Register operands -/

/-- Do the register operands name registers? -/
def Instruction.InRange (i : Instruction) : Prop := i.operand .x < 16 ∧ i.operand .y < 16

/-- A register operand of a decoded word is one of its digits. -/
theorem Instruction.inRange_of_ofWord? {w : UInt16} {i : Instruction}
    (h : Instruction.ofWord? w = some i) : i.InRange := by
  have hx := Word.field_lt w .x
  have hy := Word.field_lt w .y
  rw [(Instruction.ofWord?_eq_some_iff.mp h).2]
  generalize i.opcode = op
  -- An opcode without the operand has 0 there.
  cases op <;> exact ⟨by first | exact hx | exact Nat.succ_pos _,
    by first | exact hy | exact Nat.succ_pos _⟩

namespace Machine

variable {ρ : Type}

/-- A number below sixteen is that of a register, so asking for it cannot fail. -/
theorem withRegister_of_lt {m : Machine ρ} {r : Nat} (hr : r < 16)
    (next : Fin 16 → Outcome (Machine ρ)) : m.withRegister r next = next ⟨r, hr⟩ :=
  dif_pos hr

/-- What was done with a register was done with one of the sixteen. -/
theorem exists_of_withRegister_done {m n : Machine ρ} {r : Nat} {next : Fin 16 → Outcome (Machine ρ)}
    (h : m.withRegister r next = .done n) : ∃ hr : r < 16, next ⟨r, hr⟩ = .done n := by
  unfold withRegister at h
  split at h
  next hr => exact ⟨hr, h⟩
  next => cases h

/-! ## The sizes -/

/-- The sizes a machine is switched on with. -/
structure Sized (m : Machine ρ) : Prop where
  memory : m.memory.length = memorySize
  screen : m.screen.pixels.size = Screen.width * Screen.height
  stack : m.stack.depth ≤ stackDepth

/-- A machine that was switched on has them. -/
theorem sized_powerOn (r : ρ) : (powerOn r).Sized :=
  ⟨Memory.length_fresh, Screen.size_blank, Nat.zero_le _⟩

/-- Moving on to the next word changes none of them. -/
theorem sized_advance {m : Machine ρ} (hm : m.Sized) (w : UInt16) : (m.advance w).Sized :=
  ⟨hm.memory, hm.screen, hm.stack⟩

/-- A program is loaded into memory without making it longer. -/
theorem sized_load {m : Machine ρ} (hm : m.Sized) (program : List UInt8) :
    (m.load program).state.Sized := by
  unfold load
  split
  · rename_i hload
    exact ⟨(Memory.length_load hload).trans hm.memory, hm.screen, hm.stack⟩
  · exact hm

theorem sized_setRegister {m : Machine ρ} (hm : m.Sized) (r : Nat) (value : UInt8) :
    (m.setRegister r value).state.Sized := by
  unfold setRegister
  split
  · exact ⟨hm.memory, hm.screen, hm.stack⟩
  · exact hm

theorem sized_tick {m : Machine ρ} (hm : m.Sized) : m.tick.Sized :=
  ⟨hm.memory, hm.screen, hm.stack⟩

/-- A reset clears the screen pixel by pixel and drops all frames. -/
theorem sized_reset {m : Machine ρ} (hm : m.Sized) : m.reset.Sized :=
  ⟨hm.memory, (Screen.size_clear _).trans hm.screen, Nat.zero_le _⟩

section Programs

variable [ByteSource ρ]

/-- **No instruction changes the sizes**, whether it is done or fails. -/
theorem sized_perform {m : Machine ρ} (hm : m.Sized) (i : Instruction) :
    (m.perform i).state.Sized := by
  -- Every write keeps the sizes, so it does not matter which ones the opcode lists.
  refine perform_keeps (fun p _ => ?_) hm
  cases p with
  | memory => exact fun n memory hlen hn => ⟨hlen.trans hn.memory, hn.screen, hn.stack⟩
  | screen => exact fun n screen hsize hn => ⟨hn.memory, hsize.trans hn.screen, hn.stack⟩
  | stack =>
    -- A stack that is written is no deeper than the one before or than there is room for.
    intro n stack hdepth hn
    have hmax : max n.stack.depth stackDepth = stackDepth := Nat.max_eq_right hn.stack
    exact ⟨hn.memory, hn.screen, hmax ▸ hdepth⟩
  | _ => exact fun n _ hn => ⟨hn.memory, hn.screen, hn.stack⟩

theorem sized_executeWord {m : Machine ρ} (hm : m.Sized) (w : UInt16) :
    (m.executeWord w).state.Sized := by
  unfold executeWord
  split
  · exact sized_perform hm _
  · exact hm

/-- Nor does a step, and if it fails it leaves a machine of the right size, too. -/
theorem sized_step {m : Machine ρ} (hm : m.Sized) : m.step.state.Sized := by
  unfold step
  split
  · exact hm
  · split
    · exact hm
    · exact sized_executeWord (sized_advance hm _) _

theorem sized_steps {m : Machine ρ} (hm : m.Sized) (n : Nat) : (steps n m).state.Sized :=
  steps_keeps (fun _ => sized_step) hm n

end Programs

/-! ## Failing instructions -/

/-- A return fails on an empty stack only, before anything is written. -/
theorem clean_returnFromCall {m : Machine ρ} (hm : m.Sized) : m.returnFromCall.Clean m := by
  unfold returnFromCall
  rw [CallStack.pop_eq hm.stack]
  by_cases hd : 0 < m.stack.depth
  · rw [dif_pos hd]
    exact Outcome.clean_done
  · rw [dif_neg hd]
    exact Outcome.clean_error

/-- A call fails on a full stack only. -/
theorem clean_call (m : Machine ρ) (a : UInt16) : (m.call a).Clean m := by
  unfold call
  split
  · exact Outcome.clean_done
  · exact Outcome.clean_error

/-- A block is checked before a byte of it is stored. -/
theorem clean_storeBlock (m : Machine ρ) (block : List UInt8) : (m.storeBlock block).Clean m := by
  unfold storeBlock
  split
  · exact Outcome.clean_done
  · exact Outcome.clean_error

/-- Likewise before one is loaded. -/
theorem clean_loadRegisters (m : Machine ρ) (x : Fin 16) : (m.loadRegisters x).Clean m := by
  unfold loadRegisters
  split
  · exact Outcome.clean_done
  · exact Outcome.clean_error

/-- The rows that are read are the rows there is room for, so every cell of a sprite is there. -/
theorem drawSprite_of_full {m : Machine ρ} (hs : m.screen.pixels.size = Screen.width * Screen.height)
    (x y : Fin 16) (rows : UInt8) {sprite : List UInt8}
    (hslice : m.memory.slice m.index.toNat (m.index.toNat
      + min rows.toNat (Screen.height - (m.v.get y).toNat % Screen.height)) = .ok sprite) :
    ∃ hit screen, Screen.plot (Screen.spriteCells ((m.v.get x).toNat % Screen.width)
        ((m.v.get y).toNat % Screen.height) sprite) m.screen false = (.ok hit, screen)
      ∧ m.drawSprite x y rows = .done (m.drawn screen hit) := by
  have hleft : (m.v.get x).toNat % Screen.width < Screen.width := Nat.mod_lt _ (by decide)
  have htop : (m.v.get y).toNat % Screen.height < Screen.height := Nat.mod_lt _ (by decide)
  have hrows := Memory.length_of_slice_eq_ok hslice
  have hcells := Screen.spriteCells_onScreen hleft
    (show (m.v.get y).toNat % Screen.height + sprite.length ≤ Screen.height by omega)
  obtain ⟨hit, screen, hplot⟩ := Screen.plot_onScreen false hs hcells
  refine ⟨hit, screen, hplot, ?_⟩
  unfold drawSprite
  simp only [hslice, hplot]

/-- On a machine of the right size, once the rows are read the sprite is drawn. -/
theorem drawSprite_of_slice {m : Machine ρ} (hm : m.Sized) (x y : Fin 16) (rows : UInt8)
    {sprite : List UInt8}
    (hslice : m.memory.slice m.index.toNat (m.index.toNat
      + min rows.toNat (Screen.height - (m.v.get y).toNat % Screen.height)) = .ok sprite) :
    ∃ hit screen, Screen.plot (Screen.spriteCells ((m.v.get x).toNat % Screen.width)
        ((m.v.get y).toNat % Screen.height) sprite) m.screen false = (.ok hit, screen)
      ∧ m.drawSprite x y rows = .done (m.drawn screen hit) :=
  drawSprite_of_full hm.screen x y rows hslice

/-- So drawing can fail only where it reads, and then it has not begun. -/
theorem clean_drawSprite {m : Machine ρ} (hm : m.Sized) (x y : Fin 16) (rows : UInt8) :
    (m.drawSprite x y rows).Clean m := by
  cases hslice : m.memory.slice m.index.toNat (m.index.toNat
      + min rows.toNat (Screen.height - (m.v.get y).toNat % Screen.height)) with
  | ok sprite =>
    obtain ⟨hit, screen, -, hdraw⟩ := drawSprite_of_slice hm x y rows hslice
    rw [hdraw]
    exact Outcome.clean_done
  | error e =>
    unfold drawSprite
    simp only [hslice]
    exact Outcome.clean_error

variable [ByteSource ρ]

/-- **An instruction that fails has found an error and has changed nothing.** -/
theorem clean_perform {m : Machine ρ} (hm : m.Sized) {i : Instruction} (hi : i.InRange) :
    (m.perform i).Clean m := by
  obtain ⟨hx, hy⟩ := hi
  cases i <;> simp only [Instruction.operand] at hx hy <;>
    simp only [perform, withRegister_of_lt, hx, hy]
  case returnFromCall => exact clean_returnFromCall hm
  case call a => exact clean_call m a
  case draw rows => exact clean_drawSprite hm _ _ rows
  case storeDecimal | storeRegisters => exact clean_storeBlock m _
  case loadRegisters => exact clean_loadRegisters m _
  -- No other instruction can fail, once its registers are there.
  all_goals exact Outcome.clean_done

/-- A word fails as its instruction does, or because it has none. -/
theorem clean_executeWord {m : Machine ρ} (hm : m.Sized) (w : UInt16) :
    (m.executeWord w).Clean m := by
  unfold executeWord
  split
  · rename_i h
    exact clean_perform hm (Instruction.inRange_of_ofWord? h)
  · exact Outcome.clean_error

end Machine

end Chip8
