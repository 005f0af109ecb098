/-
  What can be seen of the timers.

  Steps and ticks alternate as the pace has it, so programs that are run at different paces have different
  timers.  Only a program that asks for the delay timer can tell.
  1. **Two views of a machine** — without its sound timer (`Machine.silenced`), and without both timers
     (`Machine.untimed`).  They are one definition with a parameter (`Machine.withoutTimers`), and so are
     the lemmas about them.
  2. **A step works on the view** (`perform_withoutTimers`, `step_congr`).  No row of `Opcode.reads` lists
     the sound timer, and one alone lists the delay timer.  A write to a timer is not seen, and every
     other write goes together with the view.
  3. **Ticks are not seen** (`frames_untimed`).  So frames that take as many steps as a run without ticks
     lead to what looks the same, whatever their size.
-/
import Chip8.Proofs.Alike
import Chip8.Proofs.Frames
import Chip8.Proofs.Reads
import Chip8.Proofs.Refusal

namespace Chip8

variable {ρ σ σ' : Type}

/-! ## Who asks for a timer -/

namespace Opcode

/-- No instruction looks at the sound timer. -/
theorem sound_not_mem_reads (op : Opcode) : Part.sound ∉ op.reads := by
  cases op <;> simp [reads]

/-- One instruction looks at the delay timer. -/
theorem eq_readDelay_of_mem_reads {op : Opcode} (h : Part.delay ∈ op.reads) : op = .readDelay := by
  cases op <;> simp [reads] at h ⊢

/-- And one writes the sound timer, as one writes the delay timer. -/
theorem eq_setSound_of_mem_writes {op : Opcode} (h : Part.sound ∈ op.writes) : op = .setSound := by
  cases op <;> simp [writes] at h ⊢

theorem eq_setDelay_of_mem_writes {op : Opcode} (h : Part.delay ∈ op.writes) : op = .setDelay := by
  cases op <;> simp [writes] at h ⊢

end Opcode

/-- Does the word read the delay timer, `Fx07`? -/
def Word.isDelayRead (w : UInt16) : Bool := Opcode.readDelay.format.accepts (Word.digits w)

/-- The words that read the delay timer are those of `readDelay`. -/
theorem Instruction.isDelayRead_iff {w : UInt16} :
    Word.isDelayRead w = true ↔ ∃ i, ofWord? w = some i ∧ i.opcode = .readDelay := by
  constructor
  · intro h
    exact ⟨_, ofWord?_of_accepts h, rfl⟩
  · rintro ⟨i, hi, hop⟩
    have hfit := (ofWord?_eq_some_iff.mp hi).1
    rwa [hop] at hfit

namespace Machine

/-! ## Steps of a kind that are not taken -/

section Avoiding

variable [ByteSource ρ] {m : Machine ρ}

/-- None of so many steps, up to the first that fails, carries out a word of this kind. -/
def Avoids (kind : UInt16 → Bool) (count : Nat) (m : Machine ρ) : Prop :=
  ∀ j < count, ∀ n, steps j m = .done n → n.executed?.any kind = false

theorem Avoids.add {kind : UInt16 → Bool} {a b : Nat} (h : m.Avoids kind (a + b)) :
    m.Avoids kind a ∧ ∀ n, steps a m = .done n → n.Avoids kind b := by
  refine ⟨fun j hj => h j (by omega), fun n hn j hj l hl => h (a + j) (by omega) l ?_⟩
  rw [steps_add, hn, Outcome.done_andThen, hl]

theorem Avoids.succ {kind : UInt16 → Bool} {count : Nat} (h : m.Avoids kind (count + 1)) :
    m.executed?.any kind = false ∧ ∀ n, m.step = .done n → n.Avoids kind count := by
  refine ⟨h 0 (Nat.succ_pos _) m rfl, fun n hn j hj l hl => h (j + 1) (by omega) l ?_⟩
  rw [steps_succ, hn, Outcome.done_andThen, hl]

/-- Reading the delay timer never fails, so a step that comes to it has carried it out. -/
theorem any_isDelayRead (m : Machine ρ) :
    m.executed?.any Word.isDelayRead = m.upcoming.any Word.isDelayRead := by
  cases hstep : m.step with
  | done n => rw [executed?_of_done hstep]
  | failed fault n =>
    rw [executed?_of_failed hstep]
    cases hword : m.upcoming with
    | none => rfl
    | some w =>
      refine (Bool.eq_false_iff.mpr fun hread => ?_).symm
      obtain ⟨i, hi, hop⟩ := Instruction.isDelayRead_iff.mp hread
      have hsure : i.opcode.fallible = false := by rw [hop]; rfl
      obtain ⟨l, hl⟩ := perform_done (m.advance w) (Instruction.inRange_of_ofWord? hi) hsure
      have hdone : m.step = .done l := by
        rw [step_of_upcoming hword, executeWord, hi]
        exact hl
      rw [hdone] at hstep
      cases hstep

end Avoiding

/-! ## Machines without their timers -/

/-- The machine with its sound timer at rest, and its delay timer too unless that one is kept. -/
def withoutTimers (keep : Bool) (m : Machine ρ) : Machine ρ :=
  { m with delay := if keep then m.delay else 0, sound := 0 }

/-- The machine with its sound timer at rest. -/
def silenced (m : Machine ρ) : Machine ρ := { m with sound := 0 }

/-- The machine with both timers at rest. -/
def untimed (m : Machine ρ) : Machine ρ := { m with delay := 0, sound := 0 }

section Views

variable {keep : Bool}

/-- Timers that are taken away cannot be taken away again. -/
theorem withoutTimers_twice (keep : Bool) (m : Machine ρ) :
    (m.withoutTimers keep).withoutTimers keep = m.withoutTimers keep := by
  cases keep <;> rfl

/-- The other parts are seen as they are. -/
theorem same_withoutTimers {p : Part} (hsound : p ≠ .sound) (hdelay : keep = true ∨ p ≠ .delay)
    (m : Machine ρ) : p.Same m (m.withoutTimers keep) := by
  cases p
  case sound => exact absurd rfl hsound
  case delay =>
    obtain rfl | h := hdelay
    · rfl
    · exact absurd rfl h
  all_goals rfl

/-- A write to them is seen as it is. -/
theorem carried_withoutTimers {p : Part} (hsound : p ≠ .sound) (hdelay : p ≠ .delay) :
    p.Carried (withoutTimers (ρ := ρ) keep) := by
  cases p
  case sound => exact absurd rfl hsound
  case delay => exact absurd rfl hdelay
  all_goals
    intro m n part h
    subst h
    rfl

variable [ByteSource ρ] {m n : Machine ρ}

/-- **An instruction works on what is seen**, unless it reads a timer that is not. -/
theorem perform_withoutTimers (m : Machine ρ) {i : Instruction}
    (hread : keep = true ∨ i.opcode ≠ .readDelay) :
    (m.perform i).map (withoutTimers keep)
      = ((m.withoutTimers keep).perform i).map (withoutTimers keep) := by
  by_cases hset : i.opcode = .setDelay ∨ i.opcode = .setSound
  · -- What is written is taken away again, or is the same in both.
    cases i <;> simp [Instruction.opcode] at hset
    all_goals
      simp only [perform, withRegister]
      split
      · cases keep <;> rfl
      · exact congrArg (Outcome.failed _) (withoutTimers_twice keep m).symm
  · have hwrites : ∀ p ∈ i.opcode.writes, p.Carried (withoutTimers (ρ := ρ) keep) := by
      intro p hp
      refine carried_withoutTimers ?_ ?_
      · rintro rfl
        exact hset (.inr (Opcode.eq_setSound_of_mem_writes hp))
      · rintro rfl
        exact hset (.inl (Opcode.eq_setDelay_of_mem_writes hp))
    have hmap : ∀ n : Machine ρ,
        (n.perform i).map (withoutTimers keep) = (n.withoutTimers keep).perform i := by
      intro n
      refine perform_map rfl (fun p hp => ?_) hwrites
      refine same_withoutTimers ?_ (hread.imp_right fun hne => ?_) n
      · rintro rfl
        exact Opcode.sound_not_mem_reads _ hp
      · rintro rfl
        exact hne (Opcode.eq_readDelay_of_mem_reads hp)
    rw [hmap, hmap, withoutTimers_twice]

/-- A word that does not read the delay timer does the same without the timers. -/
theorem executeWord_withoutTimers (m : Machine ρ) {w : UInt16}
    (hread : keep = true ∨ Word.isDelayRead w = false) :
    (m.executeWord w).map (withoutTimers keep)
      = ((m.withoutTimers keep).executeWord w).map (withoutTimers keep) := by
  unfold executeWord
  cases hi : Instruction.ofWord? w with
  | none => exact congrArg (Outcome.failed _) (withoutTimers_twice keep m).symm
  | some i =>
    refine perform_withoutTimers m (hread.imp_right fun hno hop => ?_)
    rw [Instruction.isDelayRead_iff.mpr ⟨i, hi, hop⟩] at hno
    cases hno

/-- So does a step, if the word before it is none that reads. -/
theorem step_withoutTimers (m : Machine ρ)
    (hread : keep = true ∨ m.upcoming.any Word.isDelayRead = false) :
    m.step.map (withoutTimers keep) = (m.withoutTimers keep).step.map (withoutTimers keep) := by
  have htwice := (withoutTimers_twice keep m).symm
  obtain ⟨-, ⟨hm, hn⟩ | ⟨e, hm, hn⟩⟩ | ⟨w, hword, -, hm, hn⟩ :=
    step_cases (m := m) (n := m.withoutTimers keep) rfl rfl
  · rw [hm, hn]
    exact congrArg Outcome.done htwice
  · rw [hm, hn]
    exact congrArg (Outcome.failed _) htwice
  · rw [hword] at hread
    rw [hm, hn]
    exact executeWord_withoutTimers (m.advance w) hread

/-- Machines that look the same take a step that looks the same. -/
theorem step_congr (h : m.withoutTimers keep = n.withoutTimers keep)
    (hread : keep = true ∨ n.executed?.any Word.isDelayRead = false) :
    m.step.map (withoutTimers keep) = n.step.map (withoutTimers keep) := by
  have hupcoming : (m.withoutTimers keep).upcoming = (n.withoutTimers keep).upcoming := by rw [h]
  change m.upcoming = n.upcoming at hupcoming
  rw [any_isDelayRead] at hread
  rw [step_withoutTimers m (hupcoming ▸ hread), h, ← step_withoutTimers n hread]

/-- And so many steps. -/
theorem steps_congr {count : Nat} (h : m.withoutTimers keep = n.withoutTimers keep)
    (hread : keep = true ∨ n.Avoids Word.isDelayRead count) :
    (steps count m).map (withoutTimers keep) = (steps count n).map (withoutTimers keep) := by
  induction count generalizing m n with
  | zero => exact congrArg Outcome.done h
  | succ count ih =>
    rw [steps_succ, steps_succ]
    refine Outcome.andThen_congr (step_congr h (hread.imp_right fun hno => hno.succ.1)) ?_
    intro a b _ hb hlook
    exact ih hlook (hread.imp_right fun hno => hno.succ.2 b hb)

/-- **Frames look like their steps.**  A tick is not seen where timers are not. -/
theorem frames_untimed {size k : Nat} (h : m.untimed = n.untimed)
    (hread : n.Avoids Word.isDelayRead (size * k)) :
    (frames size k m).map untimed = (steps (size * k) n).map untimed := by
  induction k generalizing m n with
  | zero => exact congrArg Outcome.done h
  | succ k ih =>
    have hlook : m.withoutTimers false = n.withoutTimers false := h
    rw [Nat.mul_succ, Nat.add_comm (size * k)] at hread ⊢
    rw [steps_add, frames, frame, Outcome.andThen_assoc]
    refine Outcome.andThen_congr (steps_congr hlook (.inr hread.add.1)) ?_
    intro a b _ hb hend
    have htick : a.tick.untimed = b.untimed := hend
    exact ih htick (hread.add.2 b hb)

end Views

/-! ## Whatever is done to a silenced machine -/

theorem load_silenced (m : Machine ρ) (program : List UInt8) :
    (m.load program).map silenced = m.silenced.load program := by
  unfold load
  dsimp only [silenced]
  cases m.memory.load program <;> rfl

theorem setRegister_silenced (m : Machine ρ) (r : Nat) (value : UInt8) :
    (m.setRegister r value).map silenced = m.silenced.setRegister r value := by
  unfold setRegister
  split <;> rfl

section Silence

variable [ByteSource ρ] {m n : Machine ρ}

/-- Machines that differ in the sound timer alone end every operation alike, and differ in it alone. -/
theorem apply_silenced (h : m.silenced = n.silenced) (op : Operation) :
    (op.apply m).map silenced = (op.apply n).map silenced := by
  have hlook : m.withoutTimers true = n.withoutTimers true := h
  cases op with
  | load program =>
    show (m.load program).map silenced = (n.load program).map silenced
    rw [load_silenced, load_silenced, h]
  | setRegister r value =>
    show (m.setRegister r value).map silenced = (n.setRegister r value).map silenced
    rw [setRegister_silenced, setRegister_silenced, h]
  | setSwitches switches =>
    exact congrArg (fun l : Machine ρ => Outcome.done { l with switches := switches }) h
  | tick => exact congrArg (fun l : Machine ρ => Outcome.done l.tick) h
  | reset => exact congrArg (fun l : Machine ρ => Outcome.done l.reset) h
  | executeWord w =>
    show (m.executeWord w).map (withoutTimers true) = (n.executeWord w).map (withoutTimers true)
    rw [executeWord_withoutTimers m (.inl rfl), hlook, ← executeWord_withoutTimers n (.inl rfl)]
  | step => exact step_congr hlook (.inl rfl)
  | steps count => exact steps_congr hlook (.inl rfl)
  | frame pace look seen =>
    rw [Operation.apply_frame, Operation.apply_frame]
    refine Outcome.andThen_congr (steps_congr hlook (.inl rfl)) ?_
    intro a b _ _ hend
    exact congrArg (fun l : Machine ρ => Outcome.done l.tick) hend

theorem command_silenced (h : m.silenced = n.silenced) (c : Command) :
    (c.apply m).map silenced = (c.apply n).map silenced := by
  cases c with
  | operate op => exact apply_silenced h op
  | togglePaused => exact congrArg (fun l : Machine ρ => Outcome.done l.togglePaused) h
  | toggleTracing => exact congrArg (fun l : Machine ρ => Outcome.done l.toggleTracing) h

/-- And so with one command after the other. -/
theorem outcomes_silenced (h : m.silenced = n.silenced) (commands : List Command) :
    (m.outcomes commands).map (Outcome.map silenced)
      = (n.outcomes commands).map (Outcome.map silenced) := by
  induction commands generalizing m n with
  | nil => rfl
  | cons c commands ih =>
    have hfirst := command_silenced h c
    have hstate : (c.apply m).state.silenced = (c.apply n).state.silenced := by
      rw [← Outcome.state_map silenced, hfirst, Outcome.state_map]
    exact congrArg₂ List.cons hfirst (ih hstate)

end Silence

end Machine

namespace Emulator

variable [ByteSource ρ]

/-- The emulator with the sound timer of its machine at rest. -/
def silenced (e : Emulator ρ) : Emulator ρ := { e with machine := e.machine.silenced }

theorem frame_silenced {look : Viewer σ} {e e' : Emulator ρ} (seen : σ)
    (h : e.silenced = e'.silenced) :
    (e.frame look seen).map silenced = (e'.frame look seen).map silenced := by
  obtain ⟨m, pace⟩ := e
  obtain ⟨n, pace'⟩ := e'
  obtain ⟨hmachine, rfl⟩ := Emulator.mk.inj h
  have hsteps := Machine.apply_silenced hmachine (.steps pace.stepsPerFrame)
  simp only [Operation.apply] at hsteps
  unfold frame
  obtain ⟨a, b, ha, hb, hend⟩ | ⟨fault, a, b, ha, hb, hend⟩ := Outcome.cases_of_map_eq hsteps
  · have hscreen : a.silenced.screen = b.silenced.screen := congrArg Machine.screen hend
    change a.screen = b.screen at hscreen
    have htick : a.silenced.tick = b.silenced.tick := congrArg Machine.tick hend
    change a.tick.silenced = b.tick.silenced at htick
    simp only [ha, hb, hscreen, FrameEnd.map, silenced, htick]
  · have hfail : a.silenced = b.silenced := hend
    simp only [ha, hb, FrameEnd.map, silenced, hfail]

/-- Frames look like the steps they take, whoever looks on. -/
theorem frames_untimed_eq_runSteps {m : Machine ρ} {pace pace' : Pace} {k count : Nat}
    (hcount : pace.stepsPerFrame * k = count) (hread : m.Avoids Word.isDelayRead count)
    (look : Viewer σ) (seen : σ) : (frames look k ⟨m, pace⟩ seen).map (fun e => e.machine.untimed)
      = (runSteps ⟨m, pace'⟩ count).map fun e => e.machine.untimed := by
  subst hcount
  rw [frames_eq, runSteps, Outcome.map_map, Outcome.map_map]
  exact Machine.frames_untimed rfl hread

/-- **The timers are seen only by who asks for them.**  Whatever the machine —
    * if none of so many steps reads the delay timer, then frames of one size and frames of another that
      take so many steps, and so many steps without a tick, all end in the same way, done or with the
      same fault, and leave machines that differ in nothing but the timers;
    * a difference in the sound timer stays a difference in the sound timer, whatever is done to the
      machines, and whichever viewer they are run for. -/
theorem timers_unseen (m : Machine ρ) :
    (∀ count, m.Avoids Word.isDelayRead count →
      ∀ (σ σ' : Type) (look : Viewer σ) (look' : Viewer σ') (seen : σ) (seen' : σ')
        (pace pace' : Pace) (k k' : Nat),
      pace.stepsPerFrame * k = count → pace'.stepsPerFrame * k' = count →
      let ended := (runSteps ⟨m, pace⟩ count).map fun e => e.machine.untimed
      (frames look k ⟨m, pace⟩ seen).map (fun e => e.machine.untimed) = ended
      ∧ (frames look' k' ⟨m, pace'⟩ seen').map (fun e => e.machine.untimed) = ended)
    ∧ ∀ n : Machine ρ, m.silenced = n.silenced →
      (∀ commands : List Command, (m.outcomes commands).map (Outcome.map Machine.silenced)
        = (n.outcomes commands).map (Outcome.map Machine.silenced))
      ∧ ∀ (σ : Type) (look : Viewer σ) (limit : Nat) (pace : Pace) (seen : σ),
        (run look limit ⟨m, pace⟩ seen).map silenced
          = (run look limit ⟨n, pace⟩ seen).map silenced := by
  refine ⟨fun count hread σ σ' look look' seen seen' pace pace' k k' hk hk' => ?_, fun n h => ?_⟩
  · exact ⟨frames_untimed_eq_runSteps hk hread look seen,
      frames_untimed_eq_runSteps hk' hread look' seen'⟩
  · refine ⟨Machine.outcomes_silenced h, fun σ look limit pace seen => ?_⟩
    have hlook : silenced ⟨m, pace⟩ = silenced ⟨n, pace⟩ := congrArg (Emulator.mk · pace) h
    exact run_congr (fun _ _ seen => frame_silenced seen) hlook limit seen

/-- Five goes onto the delay timer and then a register is cleared.  Two frames of one step leave three on
the timer, one frame of two steps leaves four, two steps without a tick leave five. -/
theorem timers_unseen_three_paces :
    let m : Machine Stepper :=
      ((Machine.powerOn (Stepper.mk 0 1)).load [0xf1, 0x15, 0x61, 0x00]).state.setV 1 5
    let blind : Viewer Unit := fun _ _ => ((), .proceed)
    m.Avoids Word.isDelayRead 2 ∧ m.silenced = ({ m with sound := 9 } : Machine Stepper).silenced
    ∧ ∃ a b c, frames blind 2 ⟨m, ⟨1, 60⟩⟩ () = .done a ∧ a.machine.delay = 3
      ∧ frames blind 1 ⟨m, ⟨2, 30⟩⟩ () = .done b ∧ b.machine.delay = 4
      ∧ runSteps ⟨m, ⟨1, 60⟩⟩ 2 = .done c ∧ c.machine.delay = 5
      ∧ a.machine.untimed = c.machine.untimed ∧ b.machine.untimed = c.machine.untimed
      ∧ (run blind 7 ⟨m, ⟨1, 60⟩⟩ ()).map silenced
        = (run blind 7 ⟨{ m with sound := 9 }, ⟨1, 60⟩⟩ ()).map silenced := by
  obtain ⟨memory, hload, hloaded⟩ := Machine.load_powerOn (Stepper.mk 0 1)
    [0xf1, 0x15, 0x61, 0x00] (by decide)
  rw [hloaded, Outcome.state_done]
  intro m blind
  have hset : Instruction.ofWord? 0xf115 = some (.setDelay 1)
      ∧ Instruction.ofWord? 0x6100 = some (.setByte 1 0) := by decide
  -- The first step does the same whatever is on the timers, and the second one too.
  have hword : m.upcoming = some 0xf115 := Machine.upcoming_eq_some_iff.mpr
    ⟨rfl, Machine.fetch_load hload (k := 0) rfl rfl rfl (w := 0xf115) (by decide)⟩
  have hfirst : m.step = .done { m with pc := 0x202, cycle := 1, delay := 5 } := by
    rw [Machine.step_of_upcoming hword, Machine.executeWord, hset.1]
    rfl
  have hword' : ∀ delay, ({ m with pc := 0x202, cycle := 1, delay := delay } :
      Machine Stepper).upcoming = some 0x6100 := fun delay => Machine.upcoming_eq_some_iff.mpr
    ⟨rfl, Machine.fetch_load hload (k := 2) rfl rfl rfl (w := 0x6100) (by decide)⟩
  have hsecond : ∀ delay, ({ m with pc := 0x202, cycle := 1, delay := delay } :
      Machine Stepper).step = .done { m with
        pc := 0x204, cycle := 2, delay := delay, v := m.v.set 1 0 } := by
    intro delay
    rw [Machine.step_of_upcoming (hword' delay), Machine.executeWord, hset.2]
    rfl
  have hread : m.Avoids Word.isDelayRead 2 := by
    intro j hj n hn
    rw [Machine.any_isDelayRead]
    obtain rfl | rfl : j = 0 ∨ j = 1 := by omega
    · obtain rfl : m = n := Outcome.done.inj hn
      rw [hword]
      decide
    · rw [Machine.steps_succ, hfirst] at hn
      obtain rfl := Outcome.done.inj hn
      rw [hword']
      decide
  have hsteps : Machine.steps 2 m = .done { m with
      pc := 0x204, cycle := 2, delay := 5, v := m.v.set 1 0 } := by
    rw [Machine.steps_succ, hfirst, Outcome.done_andThen, Machine.steps_succ, hsecond]
    rfl
  have hone : m.frames 1 2 = .done { m with
      pc := 0x204, cycle := 2, delay := 3, v := m.v.set 1 0 } := by
    have hframe : Machine.steps 1 m = .done { m with pc := 0x202, cycle := 1, delay := 5 } := by
      rw [Machine.steps_succ, hfirst]
      rfl
    have hframe' : Machine.steps 1 ({ m with pc := 0x202, cycle := 1, delay := 4 } :
        Machine Stepper) = .done { m with
          pc := 0x204, cycle := 2, delay := 4, v := m.v.set 1 0 } := by
      rw [Machine.steps_succ, hsecond]
      rfl
    rw [Machine.frames_succ_of_done hframe]
    exact Machine.frames_succ_of_done hframe'
  have htwo : m.frames 2 1 = .done { m with
      pc := 0x204, cycle := 2, delay := 4, v := m.v.set 1 0 } :=
    Machine.frames_succ_of_done hsteps
  have hseen := (timers_unseen m).1 2 hread Unit Unit blind blind () () ⟨1, 60⟩ ⟨2, 30⟩ 2 1 rfl rfl
  have hsilent := ((timers_unseen m).2 { m with sound := 9 } rfl).2 Unit blind 7 ⟨1, 60⟩ ()
  rw [frames_eq, frames_eq, runSteps, hone, htwo, hsteps] at hseen
  refine ⟨hread, rfl, _, _, _, ?_, ?_, ?_, ?_, ?_, ?_, Outcome.done.inj hseen.1,
    Outcome.done.inj hseen.2, hsilent⟩
  · rw [frames_eq, hone]
    rfl
  · rfl
  · rw [frames_eq, htwo]
    rfl
  · rfl
  · rw [runSteps, hsteps]
    rfl
  · rfl

end Emulator

end Chip8
