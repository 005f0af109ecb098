/-
  Who writes what.

  The table `Opcode.writes` says which parts of a machine an instruction may write.  That it is right is
  one statement about all thirty-one instructions (`perform_keeps`): a property that every listed write
  keeps is kept by the instruction, whether it succeeds or fails.  A write comes with what is known of
  every write of its kind —
    * a memory write leaves the length as it was, a screen write the number of pixels;
    * a stack write leaves no more live frames than there were or than there is room for.

  Everything of the form "only these instructions touch that part" is then an instance: the property is
  that the part is what it was, and the parts listed are other parts.
-/
import Chip8.Machine.Step
import Chip8.Proofs.Screen

namespace Chip8

/-! ## The parts of a machine and their writers -/

/-- A part of a machine that a program can write. -/
inductive Part where
  | memory | screen | stack | pc | index | registers | delay | sound | random
deriving DecidableEq, Repr

/-- The parts an instruction may write. -/
def Opcode.writes : Opcode → List Part
  | clearScreen => [.screen]
  | returnFromCall | call => [.stack, .pc]
  | jump | skipIfByte | skipUnlessByte | skipIfEqual | skipUnlessEqual | jumpOffset => [.pc]
  | setByte | addByte | copy | bitOr | bitAnd | bitXor | add | subtract | shiftRight
  | subtractFrom | shiftLeft | readDelay | loadRegisters => [.registers]
  | setIndex | addIndex | pointGlyph => [.index]
  | random => [.registers, .random]
  | draw => [.screen, .registers]
  | setDelay => [.delay]
  | setSound => [.sound]
  | storeDecimal | storeRegisters => [.memory]

variable {ρ : Type}

/-- Does a property of machines survive every write to a part? -/
def Part.Keeps (P : Machine ρ → Prop) : Part → Prop
  | memory => ∀ m memory, memory.length = m.memory.length → P m → P { m with memory := memory }
  | screen => ∀ m screen, screen.pixels.size = m.screen.pixels.size → P m →
      P { m with screen := screen }
  | stack => ∀ m stack, stack.depth ≤ max m.stack.depth stackDepth → P m →
      P { m with stack := stack }
  | pc => ∀ m pc, P m → P { m with pc := pc }
  | index => ∀ m index, P m → P { m with index := index }
  | registers => ∀ m v, P m → P { m with v := v }
  | delay => ∀ m delay, P m → P { m with delay := delay }
  | sound => ∀ m sound, P m → P { m with sound := sound }
  | random => ∀ m random, P m → P { m with random := random }

/-- Do two machines have the same in a part? -/
def Part.Same (m n : Machine ρ) : Part → Prop
  | memory => n.memory = m.memory
  | screen => n.screen = m.screen
  | stack => n.stack = m.stack
  | pc => n.pc = m.pc
  | index => n.index = m.index
  | registers => n.v = m.v
  | delay => n.delay = m.delay
  | sound => n.sound = m.sound
  | random => n.random = m.random

theorem Part.same_refl (p : Part) (m : Machine ρ) : p.Same m m := by cases p <;> rfl

/-- A write to one part leaves the others. -/
theorem Part.keeps_same {p q : Part} (h : q ≠ p) (m : Machine ρ) : q.Keeps (p.Same m) := by
  cases q <;> cases p <;> first
    | exact absurd rfl h
    | exact fun _ _ hn => hn
    | exact fun _ _ _ hn => hn

namespace Machine

variable {P : Machine ρ → Prop}

/-- What holds of the machine and of the outcome for the register of this number holds of the outcome. -/
theorem withRegister_of_number {m : Machine ρ} {r : Nat} {next : Fin 16 → Outcome (Machine ρ)}
    (hm : P m) (hnext : ∀ x : Fin 16, x.val = r → P (next x).state) :
    P (m.withRegister r next).state := by
  unfold withRegister
  split
  · exact hnext _ rfl
  · exact hm

/-- Often it does not matter which register it was. -/
theorem withRegister_keeps {m : Machine ρ} {r : Nat} {next : Fin 16 → Outcome (Machine ρ)}
    (hm : P m) (hnext : ∀ x, P (next x).state) : P (m.withRegister r next).state :=
  withRegister_of_number hm fun x _ => hnext x

/-! ## The operations that can fail -/

/-- A return writes the stack and the program counter, and if it fails at most the stack. -/
theorem returnFromCall_keeps (hstack : Part.stack.Keeps P) (hpc : Part.pc.Keeps P) {m : Machine ρ}
    (hm : P m) : P m.returnFromCall.state := by
  -- A pop that finds no frame has lowered the count before, so the stack is written even then.
  have hdepth : m.stack.pop.2.depth ≤ m.stack.depth := by
    unfold CallStack.pop
    split
    · exact Nat.le_refl _
    · split <;> simp only <;> omega
  have hle := Nat.le_trans hdepth (Nat.le_max_left _ stackDepth)
  unfold returnFromCall
  split <;> rename_i hpop <;> rw [hpop] at hle
  · exact hpc _ _ (hstack _ _ hle hm)
  · exact hm
  · exact hstack _ _ hle hm

/-- A call writes the stack and the program counter, or nothing. -/
theorem call_keeps (hstack : Part.stack.Keeps P) (hpc : Part.pc.Keeps P) {m : Machine ρ} (hm : P m)
    (a : UInt16) : P (m.call a).state := by
  unfold call CallStack.push
  by_cases hroom : m.stack.depth < stackDepth
  · have hle := Nat.le_trans (Nat.succ_le_of_lt hroom) (Nat.le_max_right m.stack.depth _)
    rw [dif_pos hroom]
    exact hpc _ _ (hstack _ ⟨m.stack.frames.set m.stack.depth m.pc hroom, m.stack.depth + 1⟩ hle hm)
  · rw [dif_neg hroom]
    exact hm

/-- A store writes memory, whose length stays, or nothing. -/
theorem storeBlock_keeps (hmemory : Part.memory.Keeps P) {m : Machine ρ} (hm : P m)
    (block : List UInt8) : P (m.storeBlock block).state := by
  unfold storeBlock
  split
  · exact hmemory _ _ (Memory.length_splice ..) hm
  · exact hm

theorem loadRegisters_keeps (hv : Part.registers.Keeps P) {m : Machine ρ} (hm : P m) (x : Fin 16) :
    P (m.loadRegisters x).state := by
  unfold loadRegisters
  split
  · exact hv _ _ hm
  · exact hm

/-- Drawing writes the screen and the flag, also where it stops half-way. -/
theorem drawSprite_keeps (hscreen : Part.screen.Keeps P) (hv : Part.registers.Keeps P)
    {m : Machine ρ} (hm : P m) (x y : Fin 16) (rows : UInt8) :
    P (m.drawSprite x y rows).state := by
  unfold drawSprite
  dsimp only
  split
  · exact hm
  · rename_i sprite _
    have hsize := Screen.size_plot
      (Screen.spriteCells ((m.v.get x).toNat % Screen.width)
        ((m.v.get y).toNat % Screen.height) sprite)
      m.screen false
    -- The screen is written as far as plotting came, and the flag even where it stopped.
    split <;> rename_i hplot <;> rw [hplot] at hsize
    · exact hv _ _ (hscreen _ _ hsize hm)
    · exact hv _ _ (hscreen _ _ hsize hm)

/-! ## The table is right -/

variable [ByteSource ρ]

/-- **An instruction writes what its row lists, and nothing else.** -/
theorem perform_keeps {m : Machine ρ} {i : Instruction} (hwrites : ∀ p ∈ i.opcode.writes, p.Keeps P)
    (hm : P m) : P (m.perform i).state := by
  cases i <;> simp only [Instruction.opcode, Opcode.writes, List.forall_mem_cons,
    List.not_mem_nil, false_implies, implies_true, and_true] at hwrites <;> simp only [perform]
  case clearScreen => exact hwrites _ _ (Screen.size_clear _) hm
  case returnFromCall => exact returnFromCall_keeps hwrites.1 hwrites.2 hm
  case call a => exact call_keeps hwrites.1 hwrites.2 hm a
  case jump | jumpOffset | setIndex => exact hwrites _ _ hm
  case skipIfEqual | skipUnlessEqual | copy | bitOr | bitAnd | bitXor | add | subtract
      | subtractFrom =>
    refine withRegister_keeps hm fun x => withRegister_keeps hm fun y => ?_
    exact hwrites _ _ hm
  case random b =>
    refine withRegister_keeps hm fun x => ?_
    have hv := hwrites.1 m (m.v.set x ((ByteSource.next m.random).1 &&& b)) hm
    exact hwrites.2 _ (ByteSource.next m.random).2 hv
  case draw rows =>
    refine withRegister_keeps hm fun x => withRegister_keeps hm fun y => ?_
    exact drawSprite_keeps hwrites.1 hwrites.2 hm x y rows
  case storeDecimal | storeRegisters =>
    refine withRegister_keeps hm fun x => ?_
    exact storeBlock_keeps hwrites hm _
  case loadRegisters =>
    refine withRegister_keeps hm fun x => ?_
    exact loadRegisters_keeps hwrites hm x
  -- The rest name one register and write one part.
  all_goals
    refine withRegister_keeps hm fun x => ?_
    exact hwrites _ _ hm

/-! ## What is not listed stays -/

/-- A part that the row of an instruction does not list is as it was. -/
theorem part_perform (m : Machine ρ) {i : Instruction} {p : Part} (h : p ∉ i.opcode.writes) :
    p.Same m (m.perform i).state := by
  refine perform_keeps (P := p.Same m) (fun q hq => Part.keeps_same ?_ m) (p.same_refl m)
  rintro rfl
  exact h hq

/-- No instruction writes the switches, the cycle count or the trace. -/
theorem unwritten_perform (m : Machine ρ) (i : Instruction) :
    (m.perform i).state.switches = m.switches ∧ (m.perform i).state.cycle = m.cycle
    ∧ (m.perform i).state.trace = m.trace := by
  refine perform_keeps (P := fun n => n.switches = m.switches ∧ n.cycle = m.cycle
    ∧ n.trace = m.trace) (fun p _ => ?_) ⟨rfl, rfl, rfl⟩
  cases p with
  | memory | screen | stack => exact fun _ _ _ hn => hn
  | _ => exact fun _ _ hn => hn

/-- And no word does, whether it is one of an instruction or not. -/
theorem unwritten_executeWord (m : Machine ρ) (w : UInt16) :
    (m.executeWord w).state.switches = m.switches ∧ (m.executeWord w).state.cycle = m.cycle
    ∧ (m.executeWord w).state.trace = m.trace := by
  unfold executeWord
  split
  next i _ => exact m.unwritten_perform i
  next => exact ⟨rfl, rfl, rfl⟩

theorem stack_perform {m : Machine ρ} {i : Instruction} (h : Part.stack ∉ i.opcode.writes) :
    (m.perform i).state.stack = m.stack :=
  part_perform m h

theorem pc_perform {m : Machine ρ} {i : Instruction} (h : Part.pc ∉ i.opcode.writes) :
    (m.perform i).state.pc = m.pc :=
  part_perform m h

/-- No instruction piles up more frames than there is room for. -/
theorem depth_perform_le {m : Machine ρ} (hm : m.stack.depth ≤ stackDepth) (i : Instruction) :
    (m.perform i).state.stack.depth ≤ stackDepth := by
  refine perform_keeps (P := fun n => n.stack.depth ≤ stackDepth) (fun p _ => ?_) hm
  cases p with
  | stack => exact fun n stack hdepth hn => Nat.max_eq_right hn ▸ hdepth
  | memory | screen => exact fun n _ _ hn => hn
  | _ => exact fun n _ hn => hn

theorem depth_executeWord_le {m : Machine ρ} (hm : m.stack.depth ≤ stackDepth) (w : UInt16) :
    (m.executeWord w).state.stack.depth ≤ stackDepth := by
  unfold executeWord
  split
  · exact depth_perform_le hm _
  · exact hm

theorem depth_step_le {m : Machine ρ} (hm : m.stack.depth ≤ stackDepth) :
    m.step.state.stack.depth ≤ stackDepth := by
  unfold step
  split
  · exact hm
  · split
    · exact hm
    · rename_i w _
      exact depth_executeWord_le (m := m.advance w) hm w

end Machine

end Chip8
