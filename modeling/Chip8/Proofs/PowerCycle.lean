/-
  A reset and a load are a power cycle.

  A machine that has been used, reset and loaded compares equal to one just switched on and loaded, and
  nothing that is done to both of them afterwards tells them apart.
  1. **Memory.**  A program is loaded over all of program memory, zeros behind it.  What lies below comes
     through if no instruction wrote there (`Machine.byte_after`), so the load leaves the memory that it
     leaves in a fresh one (`Memory.load_congr_below`).
  2. **The rest** is what a reset sets back.  It does not clear the frames above the live ones, and those
     are never seen (`alike_outcomes`).
  3. **Random bytes.**  What is drawn are the bytes of the source, one after the other (`byte_draws`), so
     two sources that tell the same give logs that agree (`agree_draws`).
-/
import Chip8.Proofs.Chance
import Chip8.Proofs.Footprint
import Chip8.Proofs.Table

namespace Chip8

variable {ρ ρ' : Type}

/-! ## Memory -/

/-- A load leaves the same in memories of full size that agree below the program. -/
theorem Memory.load_congr_below {m n : Memory} (hm : m.length = memorySize)
    (hn : n.length = memorySize) (h : ∀ a < programStart, m.bytes[a]? = n.bytes[a]?)
    (program : List UInt8) : m.load program = n.load program := by
  refine load_congr (hm.trans hn.symm) (fun a ha => ?_) program
  by_cases hbelow : a < programStart
  · exact h a hbelow
  · have hmsize : m.bytes.size = memorySize := hm
    have hnsize : n.bytes.size = memorySize := hn
    rw [Array.getElem?_eq_none (by omega), Array.getElem?_eq_none (by omega)]

variable [ByteSource ρ]

/-! ## What is drawn -/

/-- What a deed drew. -/
def Deed.draw (d : Deed ρ) : Draw :=
  ⟨(ByteSource.next d.before.random).1, match d.instruction with
    | .random _ mask => mask
    | _ => 0⟩

namespace Machine

variable {m : Machine ρ}

theorem draws_word (hm : m.Sized) (w : UInt16) :
    m.drawsOfWord w = (drawing (m.deedsOfWord w)).map Deed.draw := by
  obtain ⟨d, hdeeds, hbefore, hi, -⟩ | ⟨hdeeds, fault, hfail⟩ := deedsOfWord_cases hm w
  · rw [hdeeds]
    unfold drawsOfWord
    rw [hi]
    cases hinstruction : d.instruction with
    | random x mask => simp [drawing, hinstruction, Instruction.isRandom, Deed.draw, hbefore]
    | _ => simp [drawing, hinstruction, Instruction.isRandom]
  · rw [hdeeds]
    unfold drawsOfWord
    unfold executeWord at hfail
    cases hi : Instruction.ofWord? w with
    | none => rfl
    | some i =>
      cases i with
      | random x mask =>
        -- A decoded `random` names a register, so it does not fail.
        rw [hi] at hfail
        dsimp only [perform] at hfail
        rw [withRegister_of_lt (r := x) (Instruction.inRange_of_ofWord? hi).1] at hfail
        cases hfail
      | _ => rfl

theorem draws_step (hm : m.Sized) : m.drawsOfStep = (drawing m.deedsOfStep).map Deed.draw := by
  unfold drawsOfStep deedsOfStep
  cases m.upcoming with
  | none => rfl
  | some w => exact draws_word (sized_advance hm w) w

theorem draws_steps (hm : m.Sized) (k : Nat) :
    m.drawsOfSteps k = (drawing (m.deedsOfSteps k)).map Deed.draw := by
  induction k generalizing m with
  | zero => rfl
  | succ k ih =>
    have hsized := sized_step hm
    unfold drawsOfSteps deedsOfSteps
    rw [draws_step hm, drawing_append, List.map_append]
    cases hstep : m.step with
    | done n =>
      rw [hstep] at hsized
      exact congrArg (_ ++ ·) (ih hsized)
    | failed fault n => rfl

/-- What an operation draws is what its deeds drew. -/
theorem draws_apply (hm : m.Sized) (op : Operation) :
    op.draws m = (drawing (op.deeds m)).map Deed.draw := by
  cases op with
  | executeWord w => exact draws_word hm w
  | step => exact draws_step hm
  | steps n => exact draws_steps hm n
  | frame pace look seen => exact draws_steps hm pace.stepsPerFrame
  | _ => rfl

/-! ## Commands -/

theorem sized_command (c : Command) (hm : m.Sized) : (c.apply m).state.Sized := by
  cases c with
  | operate op => exact sized_apply op hm
  | togglePaused | toggleTracing => exact ⟨hm.memory, hm.screen, hm.stack⟩

/-- **What is drawn are the bytes of the source, one after the other.** -/
theorem byte_draws (hm : m.Sized) {commands : List Command} {k : Nat} {e : Draw}
    (h : (m.draws commands)[k]? = some e) : e.byte = ByteSource.byteAt m.random k := by
  induction commands generalizing m k with
  | nil => exact nomatch List.getElem?_nil.symm.trans h
  | cons c commands ih =>
    have hsized := sized_command c hm
    cases c with
    | togglePaused | toggleTracing => exact ih hsized h
    | operate op =>
      obtain ⟨hend, hbefore⟩ := (inner_random.leads_apply hm op).drawn
      have hdraws := draws_apply hm op
      have hlength : (op.draws m).length = (drawing (op.deeds m)).length := by
        rw [hdraws, List.length_map]
      replace h : (op.draws m ++ draws commands (op.apply m).state)[k]? = some e := h
      -- Either this command drew the byte, or a later one, which finds the source further on.
      by_cases hk : k < (op.draws m).length
      · rw [List.getElem?_append_left hk, hdraws, List.getElem?_map] at h
        obtain ⟨d, hd, rfl⟩ := Option.map_eq_some_iff.mp h
        show (ByteSource.next d.before.random).1 = _
        rw [hbefore k d hd]
        rfl
      · have hpast : (op.draws m).length ≤ k := Nat.le_of_not_lt hk
        rw [List.getElem?_append_right hpast] at h
        have hrest : e.byte = ByteSource.byteAt (op.apply m).state.random _ := ih hsized h
        rw [hrest, hend, ByteSource.byteAt_skip, ← hlength, Nat.add_sub_cancel' hpast]

/-- A command leaves the switches, or puts them as it says. -/
theorem switches_apply (hm : m.Sized) (op : Operation) : (op.apply m).state.switches
    = match op with
      | .setSwitches switches => switches
      | _ => m.switches := by
  have hsteps : ∀ k, (steps k m).state.switches = m.switches := fun k =>
    (steps_keeps (P := fun n => n.Sized ∧ n.switches = m.switches)
      (fun n hn => ⟨sized_step hn.1, (switches_step hn.1).trans hn.2⟩) ⟨hm, rfl⟩ k).2
  cases op with
  | load program =>
    show (m.load program).state.switches = m.switches
    unfold load
    split <;> rfl
  | setRegister r value =>
    show (m.setRegister r value).state.switches = m.switches
    unfold setRegister
    split <;> rfl
  | executeWord w =>
    show (m.executeWord w).state.switches = m.switches
    unfold executeWord
    split
    · exact switches_perform m _
    · rfl
  | step => exact switches_step hm
  | steps n => exact hsteps n
  | frame pace look seen =>
    exact Operation.frame_keeps (P := fun n => n.switches = m.switches) (fun _ hn => hn)
      (hsteps pace.stepsPerFrame)
  | setSwitches | tick | reset => rfl

section Pairs

variable [ByteSource ρ'] {n : Machine ρ'}

/-- Two sources that tell the same bytes give logs that agree. -/
theorem agree_draws (hm : m.Sized) (hn : n.Sized)
    (h : ∀ k, ByteSource.byteAt m.random k = ByteSource.byteAt n.random k)
    (commands : List Command) : Draw.Agree (m.draws commands) (n.draws commands) := by
  intro p hp
  obtain ⟨k, hk⟩ := List.mem_iff_getElem?.mp hp
  obtain ⟨hleft, hright⟩ := List.getElem?_zip_eq_some.mp hk
  rw [byte_draws hm hleft, byte_draws hn hright, h k]

theorem switches_command (hm : m.Sized) (hn : n.Sized) (h : m.switches = n.switches) (c : Command) :
    (c.apply m).state.switches = (c.apply n).state.switches := by
  cases c with
  | togglePaused => exact congrArg Switches.togglePaused h
  | toggleTracing => exact congrArg Switches.toggleTracing h
  | operate op =>
    show (op.apply m).state.switches = (op.apply n).state.switches
    rw [switches_apply hm, switches_apply hn]
    cases op with
    | setSwitches switches => rfl
    | _ => exact h

/-- Machines that compare equal and are told the same bytes go on comparing equal. -/
theorem same_outcomes (hm : m.Sized) (hn : n.Sized) (h : m.same n = true) {commands : List Command}
    (hagree : Draw.Agree (m.draws commands) (n.draws commands)) :
    List.Forall₂ (fun o p => o.fault? = p.fault? ∧ o.state.same p.state = true)
      (m.outcomes commands) (n.outcomes commands) := by
  induction commands generalizing m n with
  | nil => exact .nil
  | cons c commands ih =>
    obtain ⟨hsame, hswitches⟩ := same_iff.mp h
    obtain ⟨hfirst, hrest⟩ := alike_command ⟨hsame, hm.stack, hn.stack⟩ hagree
    have hnext : (c.apply m).state.same (c.apply n).state = true :=
      same_iff.mpr ⟨hfirst.state.same, switches_command hm hn hswitches c⟩
    exact .cons ⟨hfirst.fault, hnext⟩ (ih (sized_command c hm) (sized_command c hn) hnext hrest)

end Pairs

/-! ## A reset and a load -/

omit [ByteSource ρ] in
/-- What a load puts into a machine with a memory of full size. -/
theorem load_of_eq_fresh {program : List UInt8} {memory : Memory}
    (hload : Memory.fresh.load program = .ok memory) (hm : m.memory.length = memorySize)
    (hbelow : ∀ a < programStart, m.memory.bytes[a]? = Memory.fresh.bytes[a]?) :
    m.load program = .done { m with memory := memory } := by
  unfold load
  rw [Memory.load_congr_below hm Memory.length_fresh hbelow, hload]

/-- **A reset and a load are a power cycle.**  Take a machine with any history in which no instruction
wrote below the program, and a program that fits.
  * It can be reset and then loaded, or loaded and then reset, which leaves one and the same machine.
    The frames of its old calls are still there.
  * That machine compares equal to one just switched on, with the same switches and any source of random
    bytes, and loaded with the program.
  * If the two sources tell the same bytes from then on, whatever is done to both ends in the same way
    and leaves machines that compare equal, command after command. -/
theorem power_cycle (r : ρ) {history : List Operation}
    (hkept : ∀ d ∈ (powerOn r).deeds history, ∀ a < programStart,
      ¬ d.instruction.Writes d.before (.byte a))
    {program : List UInt8} (hfits : program.length ≤ Region.programLength) :
    let m := (powerOn r).after history
    ∃ n, m.reset.load program = .done n ∧ (m.load program).map reset = .done n
      ∧ n.stack.frames = m.stack.frames ∧ n.random = m.random
      ∧ ∀ {ρ' : Type} [ByteSource ρ'] (s : ρ'), ∃ fresh : Machine ρ',
        { powerOn s with switches := m.switches }.load program = .done fresh
        ∧ fresh.random = s ∧ n.same fresh = true
        ∧ ((∀ k, ByteSource.byteAt n.random k = ByteSource.byteAt fresh.random k) →
          ∀ commands : List Command,
            List.Forall₂ (fun o p => o.fault? = p.fault? ∧ o.state.same p.state = true)
              (n.outcomes commands) (fresh.outcomes commands)) := by
  intro m
  have hpower : (powerOn r).Sized := sized_powerOn r
  have hm : m.Sized := Reachable.sized ⟨r, history, rfl⟩
  have hbelow : ∀ a < programStart, m.memory.bytes[a]? = Memory.fresh.bytes[a]? :=
    fun a ha => byte_after hpower ha fun d hd => hkept d hd a ha
  obtain ⟨memory, hload, -⟩ := load_powerOn r program hfits
  have hlength : memory.length = memorySize := (Memory.length_load hload).trans Memory.length_fresh
  have hreset : { m.reset with memory := memory }.Sized :=
    ⟨hlength, (sized_reset hm).screen, Nat.zero_le _⟩
  refine ⟨{ m.reset with memory := memory }, load_of_eq_fresh hload hm.memory hbelow, ?_, rfl, rfl,
    fun {ρ'} _ s => ?_⟩
  · rw [load_of_eq_fresh hload hm.memory hbelow]
    rfl
  let fresh : Machine ρ' := { powerOn s with switches := m.switches, memory := memory }
  have hfresh : fresh.Sized := ⟨hlength, Screen.size_blank, Nat.zero_le _⟩
  -- The frames of old calls lie above the live ones, of which a reset leaves none.
  have hsame : { m.reset with memory := memory }.same fresh = true := by
    have hscreen : m.screen.clear = Screen.blank := clear_eq_blank hm.screen
    simp [fresh, same, reset, powerOn, hscreen, CallStack.live_clear, CallStack.live_empty]
  refine ⟨fresh, load_of_eq_fresh hload Memory.length_fresh fun a _ => rfl, rfl, hsame,
    fun hbytes commands => ?_⟩
  exact same_outcomes hreset hfresh hsame (agree_draws hreset hfresh hbytes commands)

/-- A machine that was used — it is inside of a call and has stored a byte in program memory — is reset,
loaded with another program, and takes a step, which draws. -/
theorem power_cycle_stale_frame :
    let history : List Operation :=
      [.executeWord 0x2abc, .setRegister 0 7, .executeWord 0xa300, .executeWord 0xf055]
    let program : List UInt8 := [0xc0, 0xff]
    let m := (powerOn (Stepper.mk 0 1)).after history
    (∀ d ∈ (powerOn (Stepper.mk 0 1)).deeds history, ∀ a < programStart,
      ¬ d.instruction.Writes d.before (.byte a))
    ∧ program.length ≤ Region.programLength
    ∧ m.memory.bytes[0x300]? = some 7 ∧ m.stack.frames[0] = 0x200
    ∧ ∃ n fresh : Machine Stepper, m.reset.load program = .done n
      ∧ { powerOn m.random with switches := m.switches }.load program = .done fresh
      ∧ n.stack.frames[0] = 0x200 ∧ n.same fresh = true
      ∧ List.Forall₂ (fun o p => o.fault? = p.fault? ∧ o.state.same p.state = true)
        (n.outcomes [.operate .step]) (fresh.outcomes [.operate .step]) := by
  dsimp only
  have hword : Instruction.ofWord? 0x2abc = some (.call 0xabc) := by decide
  let called : Machine Stepper := { powerOn (Stepper.mk 0 1) with
    stack := ⟨CallStack.empty.frames.set 0 0x200, 1⟩, pc := 0xabc }
  have hcall : (powerOn (Stepper.mk 0 1)).perform (.call 0xabc) = .done called := rfl
  have hsized : called.Sized := ⟨Memory.length_fresh, Screen.size_blank, by decide⟩
  obtain ⟨-, hwritten, hbyte, -, hstack⟩ := storing_at hsized 7 (w := 0xa300) (by decide)
    (by decide : (0x300 : UInt16).toNat = 0x300) (by decide)
  obtain ⟨hafter, hdeeds⟩ := after_word hword hcall
    [.setRegister 0 7, .executeWord 0xa300, .executeWord 0xf055]
  have hkept : ∀ d ∈ (powerOn (Stepper.mk 0 1)).deeds
      [.executeWord 0x2abc, .setRegister 0 7, .executeWord 0xa300, .executeWord 0xf055],
      ∀ a < programStart, ¬ d.instruction.Writes d.before (.byte a) := by
    intro d hd a ha hwrites
    rw [hdeeds] at hd
    rcases List.mem_cons.mp hd with rfl | hothers
    · exact hwrites
    · exact absurd ha (by rw [hwritten d hothers a hwrites]; decide)
  have hfits : ([0xc0, 0xff] : List UInt8).length ≤ Region.programLength := by decide
  obtain ⟨n, hreset, -, hframes, hrandom, hcycle⟩ := power_cycle (Stepper.mk 0 1) hkept hfits
  obtain ⟨fresh, hload, hsource, hsame, hrun⟩ := hcycle n.random
  rw [hafter] at hreset hframes hrandom hload ⊢
  rw [hrandom] at hload
  have hframe : called.stack.frames[0] = 0x200 := rfl
  refine ⟨hkept, hfits, hbyte, ?_, n, fresh, hreset, hload, ?_, hsame, hrun (fun k => ?_) _⟩
  · rw [hstack]
    exact hframe
  · rw [hframes, hstack]
    exact hframe
  · rw [hsource]

end Machine

end Chip8
