/-
  A paused machine.

  The switch is looked at in one place, where a step begins.  Whatever drives a machine takes steps, and so
  a paused machine takes none of them.  But a frame ends with a tick, and a tick asks no switch.
  1. **What drives a machine** (`Operation.Drives`) — a step, a row of steps, a frame.  Of these a frame
     alone ticks (`Operation.isFrame`).
  2. **The crux** (`after_of_paused`).  However it is driven, a paused machine is left as it was but for
     one tick a frame: one operation first, then along the list, and ticks add up.
  3. **When a tick is to be seen** (`ticks_eq_self_iff`).  Never where both timers are at zero, and always
     where one of them runs.

  So a pause leaves no mark if no frame passes in it or no timer runs.  Otherwise the timers run on through
  it, and a program that asks for the delay timer afterwards can tell.
-/
import Chip8.Proofs.Timing

namespace Chip8

variable {ρ σ : Type}

/-! ## What drives a machine -/

namespace Operation

/-- Does the operation let the machine go on — one step, a row of steps, or a frame? -/
def Drives : Operation → Prop
  | step | steps _ | frame .. => True
  | _ => False

/-- Is the operation a frame? -/
def isFrame : Operation → Bool
  | frame .. => true
  | _ => false

end Operation

namespace Machine

/-! ## Ticks that change nothing -/

theorem countdown_eq_self_iff {timer : UInt8} {k : Nat} :
    UInt8.ofNat (timer.toNat - k) = timer ↔ k = 0 ∨ timer = 0 := by
  have hlt := timer.toNat_lt
  rw [← UInt8.toNat_inj, ← UInt8.toNat_inj, UInt8.toNat_ofNat']
  show (timer.toNat - k) % 256 = timer.toNat ↔ k = 0 ∨ timer.toNat = 0
  omega

/-- Ticks leave a machine as it is if there are none, or no timer runs. -/
theorem ticks_eq_self_iff {k : Nat} {m : Machine ρ} :
    m.ticks k = m ↔ k = 0 ∨ m.delay = 0 ∧ m.sound = 0 := by
  have hparts : m.ticks k = m ↔ UInt8.ofNat (m.delay.toNat - k) = m.delay
      ∧ UInt8.ofNat (m.sound.toNat - k) = m.sound := by
    constructor
    · intro h
      exact ⟨congrArg Machine.delay h, congrArg Machine.sound h⟩
    · rintro ⟨hdelay, hsound⟩
      rw [ticks, hdelay, hsound]
  rw [hparts, countdown_eq_self_iff, countdown_eq_self_iff, or_and_left]

/-- Comparing sees a tick if there is one to be seen. -/
theorem same_ticks_iff {k : Nat} {m : Machine ρ} : (m.ticks k).same m = true ↔ m.ticks k = m := by
  constructor
  · intro h
    simp only [same, Bool.and_eq_true, beq_iff_eq] at h
    obtain ⟨⟨⟨-, hdelay⟩, hsound⟩, -⟩ := h
    exact ticks_eq_self_iff.mpr (or_and_left.mpr
      ⟨countdown_eq_self_iff.mp hdelay, countdown_eq_self_iff.mp hsound⟩)
  · intro h
    rw [h]
    simp [same]

theorem ticks_zero (m : Machine ρ) : m.ticks 0 = m := ticks_eq_self_iff.mpr (.inl rfl)

/-! ## A paused machine -/

variable [ByteSource ρ] {m : Machine ρ}

/-- One operation on a paused machine is a tick if it is a frame, and nothing otherwise. -/
theorem apply_of_paused (hpaused : m.switches.paused = true) {op : Operation} (hop : op.Drives) :
    op.apply m = .done (m.ticks (if op.isFrame then 1 else 0)) := by
  cases op with
  | step =>
    show m.step = .done (m.ticks 0)
    rw [step_of_paused hpaused, ticks_zero]
  | steps count =>
    show steps count m = .done (m.ticks 0)
    rw [steps_of_paused hpaused, ticks_zero]
  | frame pace look seen =>
    rw [Operation.apply_frame, steps_of_paused hpaused]
    rfl
  | load _ | setRegister _ _ | setSwitches _ | tick | reset | executeWord _ => exact hop.elim

/-- **However it is driven, a paused machine does nothing but tick**, once for each frame. -/
theorem after_of_paused (hpaused : m.switches.paused = true) {ops : List Operation}
    (hops : ∀ op ∈ ops, op.Drives) :
    m.after ops = m.ticks (ops.countP Operation.isFrame)
    ∧ ∀ o ∈ m.outcomes (ops.map Command.operate), o.fault? = none := by
  induction ops generalizing m with
  | nil => exact ⟨(ticks_zero m).symm, fun o ho => nomatch ho⟩
  | cons op ops ih =>
    have hfirst := apply_of_paused hpaused (hops op (List.mem_cons_self ..))
    -- A tick leaves the switches, so the machine is paused for the others too.
    obtain ⟨hafter, hdone⟩ := ih (m := m.ticks (if op.isFrame then 1 else 0)) hpaused
      fun other hother => hops other (List.mem_cons_of_mem _ hother)
    constructor
    · show (op.apply m).state.after ops = _
      rw [hfirst, Outcome.state_done, hafter, ticks_ticks, List.countP_cons, Nat.add_comm]
    · intro o ho
      replace ho : o ∈ op.apply m :: (op.apply m).state.outcomes (ops.map Command.operate) := ho
      rw [hfirst] at ho
      rcases List.mem_cons.mp ho with rfl | hothers
      · rfl
      · exact hdone o hothers

/-! ## After the pause -/

/-- A program that asks for the delay timer sees how far it has run. -/
theorem executeWord_readDelay (m : Machine ρ) : m.executeWord 0xf007 = .done (m.setV 0 m.delay) := by
  have hread : Instruction.ofWord? 0xf007 = some (.readDelay 0) := by decide
  rw [executeWord, hread]
  rfl

/-- The registers go through the same values in whatever follows on some ticks, as if there had been none,
if there were none or the delay timer was at zero. -/
theorem registers_ticks_iff {k : Nat} : (∀ commands : List Command,
      ((m.ticks k).outcomes commands).map (fun o => o.state.v)
        = (m.outcomes commands).map fun o => o.state.v)
    ↔ k = 0 ∨ m.delay = 0 := by
  constructor
  · intro h
    have hread := h [.operate (.executeWord 0xf007)]
    replace hread : [((m.ticks k).executeWord 0xf007).state.v] = [(m.executeWord 0xf007).state.v] :=
      hread
    rw [executeWord_readDelay, executeWord_readDelay] at hread
    have hv0 := congrArg (fun v : Vector UInt8 16 => v[0]) (List.cons.inj hread).1
    simp only [Outcome.state_done, setV, Vector.getElem_set_self, Fin.val_zero] at hv0
    exact countdown_eq_self_iff.mp hv0
  · intro h commands
    have hsilenced : (m.ticks k).silenced = m.silenced := by
      rw [silenced, ticks, countdown_eq_self_iff.mpr h, silenced]
    have hlook := congrArg (List.map fun o : Outcome (Machine ρ) => o.state.v)
      (outcomes_silenced hsilenced commands)
    simp only [List.map_map, Function.comp_def, Outcome.state_map] at hlook
    exact hlook

end Machine

namespace Emulator

variable [ByteSource ρ]

/-- **A pause holds everything but the timers.**  Take a paused machine and drive it in whatever way — with
steps, rows of steps and frames, at any pace and for any viewer.
  * Nothing fails, and the machine is left as it was, but that its timers have run down by one for each
    frame: what it looks like without them is the same.
  * An emulator around it does not change over a number of steps, and a frame shows the viewer the
    screen of the machine, and ticks.
  * It compares equal to what it was if no frame passed or both timers were at zero, and in no other
    case; and then it is what it was, so that after the pause all goes on as if there had been none.
  * The registers go on as if there had been no pause, whatever is done after it, if no frame passed or
    the delay timer was at zero, and in no other case. -/
theorem paused_but_for_ticks {m : Machine ρ} (hpaused : m.switches.paused = true)
    {ops : List Operation} (hops : ∀ op ∈ ops, op.Drives) :
    let n := m.after ops
    let frames := ops.countP Operation.isFrame
    (∀ o ∈ m.outcomes (ops.map Command.operate), o.fault? = none)
    ∧ n = m.ticks frames ∧ n.untimed = m.untimed
    ∧ (∀ (pace : Pace) (count : Nat), runSteps ⟨m, pace⟩ count = .done ⟨m, pace⟩)
    ∧ (∀ (σ : Type) (look : Viewer σ) (seen : σ) (pace : Pace), frame look ⟨m, pace⟩ seen
        = .shown ⟨m.tick, pace⟩ (look seen m.screen).1 (look seen m.screen).2)
    ∧ (n.same m = true ↔ frames = 0 ∨ m.delay = 0 ∧ m.sound = 0) ∧ (n.same m = true → n = m)
    ∧ ((∀ commands : List Command, (n.togglePaused.outcomes commands).map (fun o => o.state.v)
          = (m.togglePaused.outcomes commands).map fun o => o.state.v)
        ↔ frames = 0 ∨ m.delay = 0) := by
  intro n frames
  obtain ⟨hafter, hdone⟩ := Machine.after_of_paused hpaused hops
  replace hafter : n = m.ticks frames := hafter
  refine ⟨hdone, hafter, ?_, ?_, ?_, ?_, ?_, ?_⟩
  · rw [hafter]
    rfl
  · intro pace count
    rw [runSteps, Machine.steps_of_paused hpaused]
    rfl
  · intro σ look seen pace
    simp only [frame, Machine.steps_of_paused hpaused]
  · rw [hafter, Machine.same_ticks_iff, Machine.ticks_eq_self_iff]
  · intro hsame
    rw [hafter] at hsame ⊢
    exact Machine.same_ticks_iff.mp hsame
  · rw [hafter]
    exact Machine.registers_ticks_iff (m := m.togglePaused)

/-- A paused machine beeps on.  Two frames pass among other steps, at two paces, and its sound timer has
run out, which is to be seen of it, but not of what it does afterwards. -/
theorem paused_but_for_ticks_beeping :
    let m : Machine Stepper :=
      { Machine.powerOn (Stepper.mk 0 1) with switches := ⟨false, true⟩, sound := 2 }
    let blind : Viewer Unit := fun _ _ => ((), .proceed)
    let ops : List Operation :=
      [.step, .frame .standard blind (), .steps 7, .frame ⟨1, 0⟩ blind ()]
    m.switches.paused = true ∧ (∀ op ∈ ops, op.Drives)
    ∧ ops.countP Operation.isFrame = 2
    ∧ (m.after ops).sound = 0 ∧ (m.after ops).same m = false
    ∧ ∀ commands : List Command,
      ((m.after ops).togglePaused.outcomes commands).map (fun o => o.state.v)
        = (m.togglePaused.outcomes commands).map fun o => o.state.v := by
  intro m blind ops
  have hops : ∀ op ∈ ops, op.Drives := by
    simp [ops, Operation.Drives]
  have hframes : ops.countP Operation.isFrame = 2 := rfl
  obtain ⟨-, hafter, -, -, -, hsame, -, hregisters⟩ := paused_but_for_ticks (m := m) rfl hops
  rw [hframes] at hafter hsame hregisters
  refine ⟨rfl, hops, hframes, ?_, ?_, hregisters.mpr (.inr rfl)⟩
  · rw [hafter]
    rfl
  · rw [← Bool.not_eq_true, hsame]
    decide

/-- A pause is not always as if it had not been.  A program puts five on the delay timer, the machine is
paused, and one frame passes.  It no longer compares equal to what it was, and once the pause is over, a
program that asks for the timer reads four where it would have read five. -/
theorem paused_frame_told_apart :
    let held := (Machine.powerOn (Stepper.mk 0 1)).after
      [.executeWord 0x6005, .executeWord 0xf015, .setSwitches ⟨false, true⟩]
    let passed := held.after [.frame .standard (fun (_ : Unit) _ => ((), Flow.proceed)) ()]
    held.switches.paused = true ∧ held.delay = 5 ∧ passed.delay = 4 ∧ passed.same held = false
    ∧ (held.togglePaused.executeWord 0xf007).state.v0 = 5
    ∧ (passed.togglePaused.executeWord 0xf007).state.v0 = 4 := by
  intro held passed
  have hwords : Instruction.ofWord? 0x6005 = some (.setByte 0 5)
      ∧ Instruction.ofWord? 0xf015 = some (.setDelay 0) := by decide
  have hheld : held = { Machine.powerOn (Stepper.mk 0 1) with
      switches := ⟨false, true⟩, v := (Vector.replicate 16 0).set 0 5, delay := 5 } := by
    simp only [held, Machine.after, Operation.apply, Machine.executeWord, hwords]
    rfl
  have hpaused : held.switches.paused = true := by rw [hheld]
  have hdelay : held.delay = 5 := by rw [hheld]
  have hpassed : passed = held.ticks 1 :=
    (Machine.after_of_paused hpaused (by simp [Operation.Drives])).1
  refine ⟨hpaused, hdelay, ?_, ?_, ?_, ?_⟩
  · rw [hpassed, Machine.ticks, hdelay]
    rfl
  · rw [hpassed, ← Bool.not_eq_true, Machine.same_ticks_iff, Machine.ticks_eq_self_iff, hdelay]
    decide
  · rw [Machine.executeWord_readDelay]
    simp [Machine.v0, Machine.setV, Machine.togglePaused, hdelay]
  · rw [Machine.executeWord_readDelay, hpassed]
    simp [Machine.v0, Machine.setV, Machine.togglePaused, Machine.ticks, hdelay]

end Emulator

end Chip8
