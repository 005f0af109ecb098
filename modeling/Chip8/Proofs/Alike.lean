/-
  Machines that compare equal behave alike.

  Two machines may compare equal and still differ: in frames above the live ones, in the source of random
  bytes, in the trace.  If tracing is on in one of them only, they do not even compare equal.  None of
  this ever shows (`alike_outcomes`): whatever is done to both of them ends in the same way and leaves
  them alike, provided the random bytes agree in the bits that are used.

  1. **The core** (`Machine.core`).  All that may differ is taken away — zeros above the live frames, no
     tracing, and a source that gives one byte for ever.  Alike machines are those with the same core.
  2. **An instruction works on the core** (`core_perform`).  It ends on the core as it ends on the machine,
     up to the core, if the core is given the byte that the machine draws.  So two machines with one
     core end alike.
  3. **Logs.**  What a run draws is written down, with the masks it is used through (`Draw`).  Alike
     machines draw as often as each other, so their logs can be compared entry by entry.
-/
import Mathlib.Data.List.Forall2
import Chip8.Proofs.Operation
import Chip8.Proofs.Run

namespace Chip8

variable {ρ ρ' : Type}

/-! ## Stacks with the same live frames -/

namespace CallStack

/-- The stack with these live frames and zeros above them. -/
def ofLive (frames : List UInt16) : CallStack :=
  ⟨Vector.ofFn fun k => frames[k.val]?.getD 0, frames.length⟩

/-- It has these live frames, if there are no more than there is room for. -/
theorem live_ofLive {frames : List UInt16} (h : frames.length ≤ stackDepth) :
    (ofLive frames).live = frames := by
  refine List.ext_getElem? fun k => ?_
  show ((Vector.ofFn fun k : Fin stackDepth => frames[k.val]?.getD 0).toList.take
    frames.length)[k]? = _
  by_cases hk : k < frames.length
  · have hroom : k < stackDepth := Nat.lt_of_lt_of_le hk h
    rw [List.getElem?_take_of_lt hk]
    simp [hk, hroom]
  · rw [List.getElem?_eq_none (by rw [List.length_take]; omega), List.getElem?_eq_none (by omega)]

/-- The stack with zeros above its live frames. -/
def settled (s : CallStack) : CallStack := ofLive s.live

/-- Settling a stack leaves its live frames. -/
theorem live_settled (s : CallStack) : s.settled.live = s.live := by
  refine live_ofLive ?_
  rw [length_live]
  exact Nat.min_le_right ..

/-- Stacks with the same live frames settle into one. -/
theorem settled_congr {s t : CallStack} (h : s.live = t.live) : s.settled = t.settled :=
  congrArg ofLive h

/-- The count is left too, if it was in range. -/
theorem depth_settled {s : CallStack} (h : s.depth ≤ stackDepth) : s.settled.depth = s.depth := by
  show s.live.length = s.depth
  rw [length_live, Nat.min_eq_left h]

/-- As long as the counts are in range, the live frames tell them. -/
theorem depth_congr {s t : CallStack} (hs : s.depth ≤ stackDepth) (ht : t.depth ≤ stackDepth)
    (h : s.live = t.live) : s.depth = t.depth := by
  rw [← depth_settled hs, ← depth_settled ht, settled_congr h]

/-- A pop gives what the live frames say, and leaves what they say. -/
theorem pop_congr {s t : CallStack} (hs : s.depth ≤ stackDepth) (ht : t.depth ≤ stackDepth)
    (h : s.live = t.live) : s.pop.1 = t.pop.1 ∧ s.pop.2.live = t.pop.2.live := by
  have hdepth := depth_congr hs ht h
  have hspop := pop_eq hs
  have htpop := pop_eq ht
  by_cases hd : 0 < s.depth
  · rw [dif_pos hd] at hspop
    rw [dif_pos (hdepth ▸ hd)] at htpop
    -- Both lists end with the frame that is taken off.
    have hlast := (live_pop hspop).symm.trans (h.trans (live_pop htpop))
    obtain ⟨hrest, hframe⟩ := List.append_inj' hlast rfl
    rw [hspop, htpop, List.singleton_inj.mp hframe]
    exact ⟨rfl, hrest⟩
  · rw [dif_neg hd] at hspop
    rw [dif_neg (hdepth ▸ hd)] at htpop
    rw [hspop, htpop]
    exact ⟨rfl, h⟩

/-- So does a push. -/
theorem push_congr {s t : CallStack} (hs : s.depth ≤ stackDepth) (ht : t.depth ≤ stackDepth)
    (h : s.live = t.live) (address : UInt16) :
    (s.push address).map live = (t.push address).map live := by
  have hdepth := depth_congr hs ht h
  cases hspush : s.push address with
  | none =>
    have htpush : t.push address = none := push_eq_none_iff.mpr (hdepth ▸ push_eq_none_iff.mp hspush)
    rw [htpush]
  | some s' =>
    cases htpush : t.push address with
    | none =>
      rw [push_eq_none_iff.mpr (hdepth ▸ push_eq_none_iff.mp htpush)] at hspush
      cases hspush
    | some t' =>
      rw [Option.map_some, Option.map_some, live_push hspush, live_push htpush, h]

end CallStack

/-! ## The core of a machine -/

/-- A source that gives one byte for ever. -/
structure Constant where
  byte : UInt8
deriving DecidableEq, Repr

instance : ByteSource Constant where
  next c := (c.byte, c)

namespace Machine

/-- The machine with tracing off. -/
def untraced (m : Machine ρ) : Machine ρ := { m with switches := { m.switches with tracing := false } }

/-- What is left of a machine if all that may differ is taken away. -/
def core (byte : UInt8) (m : Machine ρ) : Machine Constant :=
  { m with
    switches := { m.switches with tracing := false }
    stack := m.stack.settled
    random := ⟨byte⟩
    trace := #[] }

/-- Two machines compare equal, but for tracing.  A stack with a count above sixteen compares with
nothing. -/
structure Alike (m : Machine ρ) (n : Machine ρ') : Prop where
  same : m.untraced.same n.untraced = true
  left : m.stack.depth ≤ stackDepth
  right : n.stack.depth ≤ stackDepth

/-- Nothing more is taken away from a core. -/
theorem core_core (byte : UInt8) (m : Machine ρ) : core byte (core byte m) = core byte m := by
  have hstack : m.stack.settled.settled = m.stack.settled :=
    CallStack.settled_congr m.stack.live_settled
  show { core byte m with stack := m.stack.settled.settled } = _
  rw [hstack]
  rfl

/-- Machines compare equal, but for tracing, exactly if they have the same core. -/
theorem same_iff_core (byte : UInt8) (m : Machine ρ) (n : Machine ρ') :
    m.untraced.same n.untraced = true ↔ core byte m = core byte n := by
  have hlive : m.stack.settled = n.stack.settled ↔ m.stack.live = n.stack.live := by
    refine ⟨fun h => ?_, CallStack.settled_congr⟩
    rw [← m.stack.live_settled, h, n.stack.live_settled]
  simp only [same, untraced, core, mk.injEq, Switches.mk.injEq, Bool.and_eq_true, beq_iff_eq, hlive,
    true_and, and_true, and_assoc]

/-- Alike machines have one core, whatever byte it is given. -/
theorem Alike.core_eq {m : Machine ρ} {n : Machine ρ'} (h : m.Alike n) (byte : UInt8) :
    core byte m = core byte n :=
  (same_iff_core byte m n).mp h.same

end Machine

/-- Two operations ended in the same way and left alike machines. -/
structure Outcome.Alike (o : Outcome (Machine ρ)) (p : Outcome (Machine ρ')) : Prop where
  fault : o.fault? = p.fault?
  state : o.state.Alike p.state

/-- Alike outcomes are both done or both failed, with one fault. -/
theorem Outcome.Alike.cases {o : Outcome (Machine ρ)} {p : Outcome (Machine ρ')} (h : o.Alike p) :
    (∃ m n, o = .done m ∧ p = .done n ∧ m.Alike n)
    ∨ ∃ fault m n, o = .failed fault m ∧ p = .failed fault n ∧ m.Alike n := by
  obtain ⟨hfault, hstate⟩ := h
  cases o with
  | done m =>
    cases p with
    | done n => exact .inl ⟨m, n, rfl, rfl, hstate⟩
    | failed g n => cases hfault
  | failed f m =>
    cases p with
    | done n => cases hfault
    | failed g n =>
      obtain rfl : f = g := Option.some.inj hfault
      exact .inr ⟨f, m, n, rfl, rfl, hstate⟩

/-- Outcomes with the same core are alike. -/
theorem Outcome.alike_of_core {o : Outcome (Machine ρ)} {p : Outcome (Machine ρ')} (byte : UInt8)
    (h : o.map (Machine.core byte) = p.map (Machine.core byte))
    (ho : o.state.stack.depth ≤ stackDepth) (hp : p.state.stack.depth ≤ stackDepth) : o.Alike p := by
  cases o with
  | done m =>
    cases p with
    | done n =>
      have hcore := Outcome.done.inj h
      exact ⟨rfl, (Machine.same_iff_core byte m n).mpr hcore, ho, hp⟩
    | failed g n => cases h
  | failed f m =>
    cases p with
    | done n => cases h
    | failed g n =>
      obtain ⟨hfault, hcore⟩ := Outcome.failed.inj h
      exact ⟨congrArg some hfault, (Machine.same_iff_core byte m n).mpr hcore, ho, hp⟩

namespace Machine

/-! ## Instructions work on the core -/

section Core

variable {byte : UInt8} {m : Machine ρ}

/-- What works on the core for every register works on it for a register number. -/
theorem core_withRegister {r : Nat} {next : Fin 16 → Outcome (Machine ρ)}
    {next' : Fin 16 → Outcome (Machine Constant)} (h : ∀ x, (next x).map (core byte) = next' x) :
    (m.withRegister r next).map (core byte) = (core byte m).withRegister r next' := by
  unfold withRegister
  by_cases hr : r < 16
  · rw [dif_pos hr, dif_pos hr]
    exact h ⟨r, hr⟩
  · rw [dif_neg hr, dif_neg hr]
    rfl

/-- A store looks at memory and I, which the core has. -/
theorem core_storeBlock (block : List UInt8) :
    (m.storeBlock block).map (core byte) = (core byte m).storeBlock block := by
  unfold storeBlock
  dsimp only [core]
  cases m.memory.check m.index.toNat (m.index.toNat + block.length) <;> rfl

theorem core_loadRegisters (x : Fin 16) :
    (m.loadRegisters x).map (core byte) = (core byte m).loadRegisters x := by
  unfold loadRegisters
  dsimp only [core]
  cases m.memory.slice m.index.toNat (m.index.toNat + x + 1) <;> rfl

/-- Drawing looks at nothing that the core lacks, either. -/
theorem core_drawSprite (x y : Fin 16) (rows : UInt8) :
    (m.drawSprite x y rows).map (core byte) = (core byte m).drawSprite x y rows := by
  unfold drawSprite
  dsimp only [core]
  cases m.memory.slice m.index.toNat (m.index.toNat
      + min rows.toNat (Screen.height - (m.v.get y).toNat % Screen.height)) with
  | error e => rfl
  | ok sprite =>
    dsimp only
    rcases Screen.plot (Screen.spriteCells ((m.v.get x).toNat % Screen.width)
      ((m.v.get y).toNat % Screen.height) sprite) m.screen false with ⟨hit | crash, screen⟩ <;> rfl

/-- A return works on the core up to the frame that it leaves dead. -/
theorem core_returnFromCall (hm : m.stack.depth ≤ stackDepth) :
    m.returnFromCall.map (core byte) = (core byte m).returnFromCall.map (core byte) := by
  have hdepth : m.stack.settled.depth ≤ stackDepth := by rwa [CallStack.depth_settled hm]
  obtain ⟨hframe, hlive⟩ := CallStack.pop_congr hm hdepth m.stack.live_settled.symm
  unfold returnFromCall
  rw [show (core byte m).stack = m.stack.settled from rfl]
  -- Of the two pops nothing matters but the frame and what is live after them.
  generalize m.stack.pop = popped at hframe hlive ⊢
  generalize m.stack.settled.pop = popped' at hframe hlive ⊢
  obtain ⟨frame, s⟩ := popped
  obtain ⟨frame', t⟩ := popped'
  obtain rfl : frame = frame' := hframe
  have hsettled : s.settled = t.settled := CallStack.settled_congr hlive
  rcases frame with crash | _ | address
  · show Outcome.failed _ { core byte m with stack := s.settled } = _
    rw [hsettled]
    rfl
  · exact congrArg (Outcome.failed _) (core_core byte m).symm
  · show Outcome.done { core byte m with stack := s.settled, pc := address } = _
    rw [hsettled]
    rfl

/-- A call works on the core up to the dead frames above the new one. -/
theorem core_call (hm : m.stack.depth ≤ stackDepth) (a : UInt16) :
    (m.call a).map (core byte) = ((core byte m).call a).map (core byte) := by
  have hdepth : m.stack.settled.depth ≤ stackDepth := by rwa [CallStack.depth_settled hm]
  have hpush := CallStack.push_congr hm hdepth m.stack.live_settled.symm m.pc
  unfold call
  rw [show (core byte m).stack.push (core byte m).pc = m.stack.settled.push m.pc from rfl]
  cases hs : m.stack.push m.pc with
  | none =>
    rw [hs, Option.map_none] at hpush
    rw [Option.map_eq_none_iff.mp hpush.symm]
    exact congrArg (Outcome.failed _) (core_core byte m).symm
  | some s =>
    rw [hs, Option.map_some] at hpush
    obtain ⟨t, ht, hlive⟩ := Option.map_eq_some_iff.mp hpush.symm
    rw [ht]
    show Outcome.done { core byte m with stack := s.settled, pc := a } = _
    rw [CallStack.settled_congr hlive.symm]
    rfl

variable [ByteSource ρ]

/-- An instruction that leaves the stack alone works on the core just as on the machine, if the byte it
draws is the one the core has — as far as the mask shows it. -/
theorem core_perform_of_stack {i : Instruction} (hstack : Part.stack ∉ i.opcode.writes)
    (hbyte : ∀ x mask, i = .random x mask →
      byte &&& mask = (ByteSource.next m.random).1 &&& mask) :
    (m.perform i).map (core byte) = (core byte m).perform i := by
  cases i <;> simp only [perform]
  case returnFromCall | call => simp [Instruction.opcode, Opcode.writes] at hstack
  case clearScreen | jump | setIndex | jumpOffset => rfl
  case draw x y rows =>
    exact core_withRegister fun x => core_withRegister fun y => core_drawSprite x y rows
  case storeDecimal | storeRegisters => exact core_withRegister fun x => core_storeBlock _
  case loadRegisters => exact core_withRegister fun x => core_loadRegisters x
  case random x mask =>
    refine core_withRegister fun x => ?_
    show Outcome.done ((core byte m).setV x ((ByteSource.next m.random).1 &&& mask))
      = Outcome.done ((core byte m).setV x (byte &&& mask))
    rw [hbyte _ mask rfl]
  case skipIfEqual | skipUnlessEqual | copy | bitOr | bitAnd | bitXor | add | subtract
      | subtractFrom =>
    exact core_withRegister fun x => core_withRegister fun y => rfl
  all_goals exact core_withRegister fun x => rfl

/-- **An instruction works on the core**: it ends there as on the machine, up to the core. -/
theorem core_perform (hm : m.stack.depth ≤ stackDepth) {i : Instruction}
    (hbyte : ∀ x mask, i = .random x mask →
      byte &&& mask = (ByteSource.next m.random).1 &&& mask) :
    (m.perform i).map (core byte) = ((core byte m).perform i).map (core byte) := by
  by_cases hstack : Part.stack ∈ i.opcode.writes
  · cases i <;> simp [Instruction.opcode, Opcode.writes] at hstack
    case returnFromCall => exact core_returnFromCall hm
    case call a => exact core_call hm a
  · rw [← core_perform_of_stack hstack hbyte]
    cases m.perform i with
    | done n => exact congrArg Outcome.done (core_core byte n).symm
    | failed fault n => exact congrArg (Outcome.failed fault) (core_core byte n).symm

/-- A word works on the core as its instruction does; one that has none leaves the machine. -/
theorem core_executeWord (hm : m.stack.depth ≤ stackDepth) {w : UInt16}
    (hbyte : ∀ x mask, Instruction.ofWord? w = some (.random x mask) →
      byte &&& mask = (ByteSource.next m.random).1 &&& mask) :
    (m.executeWord w).map (core byte) = ((core byte m).executeWord w).map (core byte) := by
  unfold executeWord
  cases hi : Instruction.ofWord? w with
  | none => exact congrArg (Outcome.failed _) (core_core byte m).symm
  | some i => exact core_perform hm fun x mask h => hbyte x mask (h ▸ hi)

end Core

/-! ## Operations that execute nothing -/

section Still

variable (byte : UInt8) (m : Machine ρ)

theorem core_load (program : List UInt8) :
    (m.load program).map (core byte) = (core byte m).load program := by
  unfold load
  dsimp only [core]
  cases m.memory.load program <;> rfl

theorem stack_load (program : List UInt8) : (m.load program).state.stack = m.stack := by
  unfold load
  split <;> rfl

theorem core_setRegister (r : Nat) (value : UInt8) :
    (m.setRegister r value).map (core byte) = (core byte m).setRegister r value := by
  unfold setRegister
  by_cases hr : r < 16
  · rw [dif_pos hr, dif_pos hr]
    rfl
  · rw [dif_neg hr, dif_neg hr]
    rfl

theorem stack_setRegister (r : Nat) (value : UInt8) :
    (m.setRegister r value).state.stack = m.stack := by
  unfold setRegister
  split <;> rfl

/-- A reset drops the frames, so the core has none after it. -/
theorem core_reset :
    core byte m.reset = { (core byte m).reset with stack := CallStack.ofLive [] } := by
  have hstack : m.stack.clear.settled = CallStack.ofLive [] :=
    congrArg CallStack.ofLive m.stack.live_clear
  show { (core byte m).reset with stack := m.stack.clear.settled } = _
  rw [hstack]

end Still

end Machine

/-! ## Logs of what is drawn -/

/-- A byte that was drawn, and the mask it was used through. -/
structure Draw where
  byte : UInt8
  mask : UInt8
deriving DecidableEq, Repr

/-- Do two logs agree, entry by entry, in the bits that were used? -/
def Draw.Agree (log log' : List Draw) : Prop :=
  ∀ p ∈ log.zip log', p.1.byte &&& p.1.mask = p.2.byte &&& p.1.mask

/-- Logs that agree agree in their beginnings and in what follows, where these are equally long. -/
theorem Draw.agree_append {a b c d : List Draw} (hlength : a.length = b.length)
    (h : Draw.Agree (a ++ c) (b ++ d)) : Draw.Agree a b ∧ Draw.Agree c d := by
  unfold Draw.Agree at h
  rw [List.zip_append hlength] at h
  exact ⟨fun p hp => h p (List.mem_append_left _ hp), fun p hp => h p (List.mem_append_right _ hp)⟩

namespace Machine

section Logs

variable [ByteSource ρ]

/-- What a machine draws to carry out a word. -/
def drawsOfWord (m : Machine ρ) (w : UInt16) : List Draw :=
  match Instruction.ofWord? w with
  | some (.random _ mask) => [⟨(ByteSource.next m.random).1, mask⟩]
  | _ => []

/-- What it draws in a step. -/
def drawsOfStep (m : Machine ρ) : List Draw :=
  match m.upcoming with
  | some w => m.drawsOfWord w
  | none => []

/-- What it draws in a number of steps. -/
def drawsOfSteps : Nat → Machine ρ → List Draw
  | 0, _ => []
  | k + 1, m => m.drawsOfStep ++ match m.step with
      | .done n => drawsOfSteps k n
      | .failed .. => []

end Logs

end Machine

/-- What a machine draws in an operation. -/
def Operation.draws [ByteSource ρ] (m : Machine ρ) : Operation → List Draw
  | executeWord w => m.drawsOfWord w
  | step => m.drawsOfStep
  | steps n => m.drawsOfSteps n
  | frame pace _ _ => m.drawsOfSteps pace.stepsPerFrame
  | _ => []

/-! ## Words and steps -/

namespace Machine

variable {m : Machine ρ} {n : Machine ρ'}

/-- Machines with one core are alike, if their counts are in range. -/
theorem Alike.of_core (byte : UInt8) (h : core byte m = core byte n)
    (hm : m.stack.depth ≤ stackDepth) (hn : n.stack.depth ≤ stackDepth) : m.Alike n :=
  ⟨(same_iff_core byte m n).mpr h, hm, hn⟩

/-- Alike machines have the same word before them. -/
theorem Alike.fetch_eq (h : m.Alike n) :
    m.switches.paused = n.switches.paused ∧ m.fetch = n.fetch ∧ m.upcoming = n.upcoming :=
  ⟨congrArg (fun c => c.switches.paused) (h.core_eq 0), congrArg fetch (h.core_eq 0),
    congrArg upcoming (h.core_eq 0)⟩

/-- They stay alike when both move on to the next word. -/
theorem Alike.advance (h : m.Alike n) (w : UInt16) : (m.advance w).Alike (n.advance w) := by
  have hcore : (core 0 m).advance w = (core 0 n).advance w := by rw [h.core_eq]
  exact .of_core 0 hcore h.left h.right

theorem Alike.tick (h : m.Alike n) : m.tick.Alike n.tick := by
  have hcore : (core 0 m).tick = (core 0 n).tick := by rw [h.core_eq]
  exact .of_core 0 hcore h.left h.right

variable [ByteSource ρ] [ByteSource ρ']

/-- Whether a word draws depends on the word alone. -/
theorem length_drawsOfWord (m : Machine ρ) (n : Machine ρ') (w : UInt16) :
    (m.drawsOfWord w).length = (n.drawsOfWord w).length := by
  unfold drawsOfWord
  split <;> rfl

/-- Alike machines take the same step, so they draw as often. -/
theorem length_drawsOfStep (h : m.Alike n) : m.drawsOfStep.length = n.drawsOfStep.length := by
  unfold drawsOfStep
  rw [h.fetch_eq.2.2]
  cases n.upcoming with
  | none => rfl
  | some w => exact length_drawsOfWord m n w

/-- Both machines work on one core, which is given the byte that the first of them draws. -/
theorem alike_executeWord (h : m.Alike n) {w : UInt16}
    (hagree : Draw.Agree (m.drawsOfWord w) (n.drawsOfWord w)) :
    (m.executeWord w).Alike (n.executeWord w) := by
  have hbyte : ∀ x mask, Instruction.ofWord? w = some (.random x mask) →
      (ByteSource.next m.random).1 &&& mask = (ByteSource.next n.random).1 &&& mask := by
    intro x mask hi
    unfold drawsOfWord at hagree
    rw [hi] at hagree
    exact hagree (⟨_, mask⟩, ⟨_, mask⟩) (List.mem_singleton_self _)
  have hm := core_executeWord (w := w) h.left fun _ _ _ => rfl
  have hn := core_executeWord h.right hbyte
  rw [h.core_eq, ← hn] at hm
  exact Outcome.alike_of_core _ hm (depth_executeWord_le h.left w) (depth_executeWord_le h.right w)

/-- Alike machines stay alike over a step, if the bytes they draw agree. -/
theorem alike_step (h : m.Alike n) (hagree : Draw.Agree m.drawsOfStep n.drawsOfStep) :
    m.step.Alike n.step := by
  obtain ⟨hpaused, hfetch, -⟩ := h.fetch_eq
  obtain ⟨-, ⟨hm, hn⟩ | ⟨e, hm, hn⟩⟩ | ⟨w, hword, hword', hm, hn⟩ :=
    step_cases hpaused.symm hfetch.symm
  · rw [hm, hn]
    exact ⟨rfl, h⟩
  · rw [hm, hn]
    exact ⟨rfl, h⟩
  · unfold drawsOfStep at hagree
    rw [hword, hword'] at hagree
    rw [hm, hn]
    exact alike_executeWord (h.advance w) hagree

/-- Steps that are followed by something else, which draws too. -/
theorem alike_steps {k : Nat} (h : m.Alike n) {rest rest' : List Draw}
    (hagree : Draw.Agree (m.drawsOfSteps k ++ rest) (n.drawsOfSteps k ++ rest')) :
    (steps k m).Alike (steps k n) ∧ Draw.Agree rest rest' := by
  induction k generalizing m n with
  | zero => exact ⟨⟨rfl, h⟩, hagree⟩
  | succ k ih =>
    unfold drawsOfSteps at hagree
    rw [List.append_assoc, List.append_assoc] at hagree
    obtain ⟨hfirst, hothers⟩ := Draw.agree_append (length_drawsOfStep h) hagree
    have hstep := alike_step h hfirst
    rw [steps_succ, steps_succ]
    obtain ⟨m', n', hm, hn, hnext⟩ | ⟨fault, m', n', hm, hn, hleft⟩ := hstep.cases
    · rw [hm, hn] at hothers ⊢
      exact ih hnext hothers
    · rw [hm, hn] at hothers ⊢
      exact ⟨⟨rfl, hleft⟩, hothers⟩

/-! ## Operations -/

/-- **They stay alike over every operation**, and the rest of their logs agrees. -/
theorem alike_apply (h : m.Alike n) {op : Operation} {rest rest' : List Draw}
    (hagree : Draw.Agree (op.draws m ++ rest) (op.draws n ++ rest')) :
    (op.apply m).Alike (op.apply n) ∧ Draw.Agree rest rest' := by
  have hcore := h.core_eq 0
  cases op with
  | executeWord w =>
    obtain ⟨hfirst, hrest⟩ := Draw.agree_append (length_drawsOfWord m n w) hagree
    exact ⟨alike_executeWord h hfirst, hrest⟩
  | step =>
    obtain ⟨hfirst, hrest⟩ := Draw.agree_append (length_drawsOfStep h) hagree
    exact ⟨alike_step h hfirst, hrest⟩
  | steps k => exact alike_steps h hagree
  | frame pace look seen =>
    obtain ⟨halike, hrest⟩ := alike_steps h hagree
    refine ⟨?_, hrest⟩
    rw [Operation.apply_frame, Operation.apply_frame]
    obtain ⟨m', n', hm, hn, hnext⟩ | ⟨fault, m', n', hm, hn, hleft⟩ := halike.cases
    · rw [hm, hn]
      exact ⟨rfl, hnext.tick⟩
    · rw [hm, hn]
      exact ⟨rfl, hleft⟩
  -- The others draw nothing, so the logs still agree; and they work on the core.
  | load program =>
    refine ⟨Outcome.alike_of_core 0 ?_ ?_ ?_, hagree⟩
    · show (m.load program).map _ = (n.load program).map _
      rw [core_load, core_load, hcore]
    · exact (m.stack_load program).symm ▸ h.left
    · exact (n.stack_load program).symm ▸ h.right
  | setRegister r value =>
    refine ⟨Outcome.alike_of_core 0 ?_ ?_ ?_, hagree⟩
    · show (m.setRegister r value).map _ = (n.setRegister r value).map _
      rw [core_setRegister, core_setRegister, hcore]
    · exact (m.stack_setRegister r value).symm ▸ h.left
    · exact (n.stack_setRegister r value).symm ▸ h.right
  | setSwitches switches =>
    have hset : { core 0 m with switches := { switches with tracing := false } }
        = { core 0 n with switches := { switches with tracing := false } } := by rw [hcore]
    exact ⟨⟨rfl, .of_core 0 hset h.left h.right⟩, hagree⟩
  | tick => exact ⟨⟨rfl, h.tick⟩, hagree⟩
  | reset =>
    have hreset : core 0 m.reset = core 0 n.reset := by rw [core_reset, core_reset, hcore]
    exact ⟨⟨rfl, .of_core 0 hreset (Nat.zero_le _) (Nat.zero_le _)⟩, hagree⟩

end Machine

/-! ## Whatever is done to both -/

/-- Something to do to two machines at once — an operation, or turning a switch, which may stand
differently in the two. -/
inductive Command where
  | operate (op : Operation)
  | togglePaused
  | toggleTracing

namespace Command

variable [ByteSource ρ]

/-- How a command ends on a machine. -/
def apply (m : Machine ρ) : Command → Outcome (Machine ρ)
  | operate op => op.apply m
  | togglePaused => .done m.togglePaused
  | toggleTracing => .done m.toggleTracing

/-- What the machine draws in it. -/
def draws (m : Machine ρ) : Command → List Draw
  | operate op => op.draws m
  | togglePaused | toggleTracing => []

end Command

namespace Machine

section Runs

variable [ByteSource ρ]

/-- How commands end, one after the other.  After one that fails, the next goes on from what it left. -/
def outcomes : List Command → Machine ρ → List (Outcome (Machine ρ))
  | [], _ => []
  | c :: commands, m => c.apply m :: outcomes commands (c.apply m).state

/-- What is drawn in all of them. -/
def draws : List Command → Machine ρ → List Draw
  | [], _ => []
  | c :: commands, m => c.draws m ++ draws commands (c.apply m).state

end Runs

variable {m : Machine ρ} {n : Machine ρ'} [ByteSource ρ] [ByteSource ρ']

theorem alike_command (h : m.Alike n) {c : Command} {rest rest' : List Draw}
    (hagree : Draw.Agree (c.draws m ++ rest) (c.draws n ++ rest')) :
    (c.apply m).Alike (c.apply n) ∧ Draw.Agree rest rest' := by
  cases c with
  | operate op => exact alike_apply h hagree
  | togglePaused =>
    have hcore : (core 0 m).togglePaused = (core 0 n).togglePaused := by rw [h.core_eq]
    exact ⟨⟨rfl, .of_core 0 hcore h.left h.right⟩, hagree⟩
  | toggleTracing =>
    have hcore : core 0 m.toggleTracing = core 0 n.toggleTracing := h.core_eq 0
    exact ⟨⟨rfl, .of_core 0 hcore h.left h.right⟩, hagree⟩

/-- **Machines that compare equal behave alike.**  Take two machines that compare equal, but for tracing,
and do the same to both of them.  If the bytes they draw agree, one by one, in the bits that the masks
keep, then every command ends on both in the same way — done, or failed with the same fault — and the
machines it leaves compare equal again, but for tracing. -/
theorem alike_outcomes (h : m.Alike n) (commands : List Command)
    (hagree : Draw.Agree (m.draws commands) (n.draws commands)) :
    List.Forall₂ Outcome.Alike (m.outcomes commands) (n.outcomes commands) := by
  induction commands generalizing m n with
  | nil => exact .nil
  | cons c commands ih =>
    obtain ⟨hfirst, hrest⟩ := alike_command h hagree
    exact .cons hfirst (ih hfirst.state hrest)

/-- The second machine is traced and holds sixteen dead frames, and its byte differs from that of the first
where `c00f` does not look. -/
theorem alike_outcomes_dead_frames :
    let m : Machine ScriptedBytes := powerOn (.ofList [0x5a])
    let n : Machine Stepper := { powerOn (Stepper.mk 0xfa 0) with
      switches := ⟨true, false⟩, stack := ⟨Vector.replicate 16 0x202, 0⟩ }
    let commands : List Command :=
      [.operate (.executeWord 0xc00f), .toggleTracing, .operate (.executeWord 0x00ee)]
    m.Alike n ∧ m.draws commands = [⟨0x5a, 0x0f⟩] ∧ n.draws commands = [⟨0xfa, 0x0f⟩]
    ∧ Draw.Agree (m.draws commands) (n.draws commands)
    ∧ List.Forall₂ Outcome.Alike (m.outcomes commands) (n.outcomes commands) := by
  intro m n commands
  have hdraw : Instruction.ofWord? 0xc00f = some (.random 0 0x0f) := by decide
  have hreturn : Instruction.ofWord? 0x00ee = some .returnFromCall := by decide
  have halike : m.Alike n := ⟨by simp [m, n, same, untraced, powerOn, CallStack.live,
    CallStack.empty, Switches.off], Nat.zero_le _, Nat.zero_le _⟩
  have hm : m.draws commands = [⟨0x5a, 0x0f⟩] := by
    simp only [commands, draws, Command.draws, Operation.draws, drawsOfWord, hdraw, hreturn]
    rfl
  have hn : n.draws commands = [⟨0xfa, 0x0f⟩] := by
    simp only [commands, draws, Command.draws, Operation.draws, drawsOfWord, hdraw, hreturn]
    rfl
  have hagree : Draw.Agree (m.draws commands) (n.draws commands) := by
    rw [hm, hn]
    intro p hp
    obtain rfl := List.mem_singleton.mp hp
    decide
  exact ⟨halike, hm, hn, hagree, alike_outcomes halike commands hagree⟩

end Machine

end Chip8
