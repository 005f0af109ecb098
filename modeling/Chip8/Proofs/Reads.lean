/-
  Who reads what.

  The table `Opcode.reads` says which parts of a machine an instruction looks at, as `Opcode.writes` says
  which it writes.  That it is right is again one statement about all thirty-one instructions
  (`perform_map`), and again one about every way to change a machine: if a change leaves the listed parts
  to be seen as they are (`Part.Same`) and goes together with the listed writes (`Part.Carried`), it is
  all the same whether it is made before the instruction or after it.

  Everything of the form "that part makes no difference" is an instance: the change puts something else
  into the part, and the parts listed are other parts.
-/
import Chip8.Proofs.Writes

namespace Chip8

/-! ## The parts of a machine and their readers -/

/-- The parts that an instruction looks at.  A return and a call report the program counter if they
fail, clearing the screen needs its size, and every block of bytes is checked against the length of
memory. -/
def Opcode.reads : Opcode → List Part
  | jump | setIndex => []
  | clearScreen => [.screen]
  | returnFromCall | call => [.stack, .pc]
  | skipIfByte | skipUnlessByte | skipIfEqual | skipUnlessEqual => [.registers, .pc]
  | setByte | addByte | copy | bitOr | bitAnd | bitXor | add | subtract | shiftRight
  | subtractFrom | shiftLeft | jumpOffset | setDelay | setSound | pointGlyph => [.registers]
  | addIndex => [.registers, .index]
  | readDelay => [.registers, .delay]
  | random => [.registers, .random]
  | draw => [.registers, .index, .memory, .screen]
  | storeDecimal | storeRegisters | loadRegisters => [.registers, .index, .memory]

variable {ρ : Type}

/-- Is it all the same whether a part is written before a change of machines or after it? -/
def Part.Carried (f : Machine ρ → Machine ρ) : Part → Prop
  | memory => ∀ m n memory, f m = n → f { m with memory := memory } = { n with memory := memory }
  | screen => ∀ m n screen, f m = n → f { m with screen := screen } = { n with screen := screen }
  | stack => ∀ m n stack, f m = n → f { m with stack := stack } = { n with stack := stack }
  | pc => ∀ m n pc, f m = n → f { m with pc := pc } = { n with pc := pc }
  | index => ∀ m n index, f m = n → f { m with index := index } = { n with index := index }
  | registers => ∀ m n v, f m = n → f { m with v := v } = { n with v := v }
  | delay => ∀ m n delay, f m = n → f { m with delay := delay } = { n with delay := delay }
  | sound => ∀ m n sound, f m = n → f { m with sound := sound } = { n with sound := sound }
  | random => ∀ m n random, f m = n → f { m with random := random } = { n with random := random }

namespace Machine

section Changes

variable {f : Machine ρ → Machine ρ} {m n : Machine ρ}

/-- What goes together with the change for every register goes together with it. -/
theorem withRegister_map (h : f m = n) {r : Nat} {next next' : Fin 16 → Outcome (Machine ρ)}
    (hnext : ∀ x, (next x).map f = next' x) :
    (m.withRegister r next).map f = n.withRegister r next' := by
  unfold withRegister
  by_cases hr : r < 16
  · rw [dif_pos hr, dif_pos hr]
    exact hnext ⟨r, hr⟩
  · rw [dif_neg hr, dif_neg hr]
    exact congrArg (Outcome.failed _) h

/-! ## The operations that can fail -/

/-- A return looks at the stack, and at the program counter for its error. -/
theorem returnFromCall_map (h : f m = n) (hstack : n.stack = m.stack) (hpc : n.pc = m.pc)
    (cstack : Part.stack.Carried f) (cpc : Part.pc.Carried f) :
    m.returnFromCall.map f = n.returnFromCall := by
  unfold returnFromCall
  rw [hstack]
  -- A crash, an empty stack, an address: only the second reports the counter and writes nothing.
  rcases m.stack.pop with ⟨crash | _ | address, stack⟩
  · exact congrArg (Outcome.failed _) (cstack m n stack h)
  · rw [hpc]
    exact congrArg (Outcome.failed _) h
  · exact congrArg Outcome.done (cpc _ _ address (cstack m n stack h))

theorem call_map (h : f m = n) (hstack : n.stack = m.stack) (hpc : n.pc = m.pc)
    (cstack : Part.stack.Carried f) (cpc : Part.pc.Carried f) (a : UInt16) :
    (m.call a).map f = n.call a := by
  unfold call
  rw [hstack, hpc]
  cases m.stack.push m.pc with
  | none => exact congrArg (Outcome.failed _) h
  | some stack => exact congrArg Outcome.done (cpc _ _ a (cstack m n stack h))

/-- Where a block goes depends on I, and whether it fits on the length of memory. -/
theorem storeBlock_map (h : f m = n) (hmemory : n.memory = m.memory) (hindex : n.index = m.index)
    (cmemory : Part.memory.Carried f) (block : List UInt8) :
    (m.storeBlock block).map f = n.storeBlock block := by
  have hcheck : n.memory.check n.index.toNat (n.index.toNat + block.length)
      = m.memory.check m.index.toNat (m.index.toNat + block.length) := by rw [hmemory, hindex]
  unfold storeBlock
  rw [hcheck]
  cases m.memory.check m.index.toNat (m.index.toNat + block.length) with
  | ok _ =>
    refine congrArg Outcome.done ((cmemory m n _ h).trans ?_)
    rw [hmemory, hindex]
  | error e => exact congrArg (Outcome.failed _) h

/-- A load looks at the bytes it loads, and at the registers that it leaves. -/
theorem loadRegisters_map (h : f m = n) (x : Fin 16)
    (hslice : n.memory.slice n.index.toNat (n.index.toNat + x + 1)
      = m.memory.slice m.index.toNat (m.index.toNat + x + 1))
    (hv : n.v = m.v) (cv : Part.registers.Carried f) :
    (m.loadRegisters x).map f = n.loadRegisters x := by
  unfold loadRegisters
  rw [hslice]
  cases m.memory.slice m.index.toNat (m.index.toNat + x + 1) with
  | ok values =>
    refine congrArg Outcome.done ((cv m n _ h).trans ?_)
    rw [hv]
  | error e => exact congrArg (Outcome.failed _) h

/-- The flag is put among the registers that are there. -/
theorem drawn_map (h : f m = n) (hv : n.v = m.v) (cscreen : Part.screen.Carried f)
    (cv : Part.registers.Carried f) (screen : Screen) (hit : Bool) :
    f (m.drawn screen hit) = n.drawn screen hit := by
  refine (cv _ _ _ (cscreen m n screen h)).trans ?_
  unfold drawn
  rw [hv]

/-- Drawing looks at two registers, at the rows in memory and at the screen under them. -/
theorem drawSprite_map (h : f m = n) (x y : Fin 16) (rows : UInt8)
    (hslice : ∀ count, count = min rows.toNat (Screen.height - (m.v.get y).toNat % Screen.height) →
      n.memory.slice n.index.toNat (n.index.toNat + count)
        = m.memory.slice m.index.toNat (m.index.toNat + count))
    (hv : n.v = m.v) (hscreen : n.screen = m.screen) (cscreen : Part.screen.Carried f)
    (cv : Part.registers.Carried f) : (m.drawSprite x y rows).map f = n.drawSprite x y rows := by
  unfold drawSprite
  dsimp only
  rw [hv, hslice _ rfl, hscreen]
  cases m.memory.slice m.index.toNat (m.index.toNat
      + min rows.toNat (Screen.height - (m.v.get y).toNat % Screen.height)) with
  | error e => exact congrArg (Outcome.failed _) h
  | ok sprite =>
    dsimp only
    rcases Screen.plot (Screen.spriteCells ((m.v.get x).toNat % Screen.width)
      ((m.v.get y).toNat % Screen.height) sprite) m.screen false with ⟨crash | hit, screen⟩
    · exact congrArg (Outcome.failed _) (drawn_map h hv cscreen cv screen false)
    · exact congrArg Outcome.done (drawn_map h hv cscreen cv screen hit)

/-! ## The table is right -/

variable [ByteSource ρ]

/-- **An instruction looks at what its row lists, and at nothing else**: a change that shows it those
parts as they are, and goes together with its writes, goes together with the instruction. -/
theorem perform_map (h : f m = n) {i : Instruction} (hreads : ∀ p ∈ i.opcode.reads, p.Same m n)
    (hwrites : ∀ p ∈ i.opcode.writes, p.Carried f) : (m.perform i).map f = n.perform i := by
  cases i <;> simp only [Instruction.opcode, Opcode.reads, Opcode.writes, List.forall_mem_cons,
    List.not_mem_nil, false_implies, implies_true, and_true, Part.Same] at hreads hwrites <;>
    simp only [perform, setV, setResult, skipWhen, v0]
  case clearScreen =>
    refine congrArg Outcome.done ((hwrites m n _ h).trans ?_)
    rw [hreads]
  case returnFromCall => exact returnFromCall_map h hreads.1 hreads.2 hwrites.1 hwrites.2
  case jump | setIndex => exact congrArg Outcome.done (hwrites m n _ h)
  case call a => exact call_map h hreads.1 hreads.2 hwrites.1 hwrites.2 a
  case jumpOffset =>
    refine congrArg Outcome.done ((hwrites m n _ h).trans ?_)
    rw [hreads]
  case skipIfEqual | skipUnlessEqual =>
    refine withRegister_map h fun x => withRegister_map h fun y => ?_
    refine congrArg Outcome.done ((hwrites m n _ h).trans ?_)
    rw [hreads.1, hreads.2]
  case skipIfByte | skipUnlessByte | readDelay | addIndex =>
    refine withRegister_map h fun x => ?_
    refine congrArg Outcome.done ((hwrites m n _ h).trans ?_)
    rw [hreads.1, hreads.2]
  case copy | bitOr | bitAnd | bitXor | add | subtract | subtractFrom =>
    refine withRegister_map h fun x => withRegister_map h fun y => ?_
    refine congrArg Outcome.done ((hwrites m n _ h).trans ?_)
    rw [hreads]
  case random mask =>
    refine withRegister_map h fun x => ?_
    have hv := hwrites.1 m n (m.v.set x ((ByteSource.next m.random).1 &&& mask)) h
    refine congrArg Outcome.done ((hwrites.2 _ _ (ByteSource.next m.random).2 hv).trans ?_)
    rw [hreads.1, hreads.2]
  case draw rows =>
    obtain ⟨hv, hindex, hmemory, hscreen⟩ := hreads
    refine withRegister_map h fun x => withRegister_map h fun y => ?_
    refine drawSprite_map h x y rows (fun count _ => ?_) hv hscreen hwrites.1 hwrites.2
    rw [hmemory, hindex]
  case storeDecimal =>
    refine withRegister_map h fun x => ?_
    rw [hreads.1]
    exact storeBlock_map h hreads.2.2 hreads.2.1 hwrites _
  case storeRegisters =>
    refine withRegister_map h fun x => ?_
    unfold registersUpTo
    rw [hreads.1]
    exact storeBlock_map h hreads.2.2 hreads.2.1 hwrites _
  case loadRegisters =>
    refine withRegister_map h fun x => ?_
    refine loadRegisters_map h x ?_ hreads.1 hwrites
    rw [hreads.2.1, hreads.2.2]
  -- The rest name one register and look at nothing but the registers.
  all_goals
    refine withRegister_map h fun x => ?_
    refine congrArg Outcome.done ((hwrites m n _ h).trans ?_)
    rw [hreads]

end Changes

end Machine

end Chip8
