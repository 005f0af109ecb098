/-
  As many frames as were asked for.

  The runner counts the frames it shows, and compares after each of them.  So it stops with the frame that
  makes up the number, and shows one even if none was asked for.
  1. **What a frame counts** (`cycle_frames`).  A step that is done counts one cycle, whatever it carries
     out, and leaves the switches, so a machine that runs goes on running.
  2. **What the viewer answers** (`answers_counting`).  It lets frames pass as long as their number is
     below the one asked for, and asks to stop with the frame after that.
  3. **The crux** (`advance_of_frames_done`, `advance_of_frames_failed`).  The viewer is a function of the
     list of screens, so the run is its frames (`run_stops`, `run_fails`), and how many there are is the
     length of that list.

  The number was read off the command line and has 64 bits, so no run gets to the limit of frames.
-/
import Chip8.Proofs.Frames
import Chip8.Proofs.Operation
import Chip8.Proofs.Settings
import Chip8.Proofs.Writers

namespace Chip8

variable {ρ : Type}

namespace Machine

variable [ByteSource ρ] {m n : Machine ρ}

/-! ## What a frame counts -/

/-- A step that is done is counted, and the machine still runs. -/
theorem cycle_step (hrun : m.switches.paused = false) (h : m.step = .done n) :
    n.cycle = m.cycle + 1 ∧ n.switches.paused = false := by
  cases hword : m.upcoming with
  | none =>
    cases hfetch : m.fetch with
    | error e =>
      rw [step_of_fetch_error hrun hfetch] at h
      cases h
    | ok w =>
      rw [upcoming_eq_some_iff.mpr ⟨hrun, hfetch⟩] at hword
      cases hword
  | some w =>
    rw [step_of_upcoming hword] at h
    obtain ⟨hswitches, hcycle, -⟩ := unwritten_executeWord (m.advance w) w
    rw [h] at hswitches hcycle
    exact ⟨hcycle, (congrArg Switches.paused hswitches).trans hrun⟩

theorem cycle_steps {size : Nat} (hrun : m.switches.paused = false) (h : steps size m = .done n) :
    n.cycle = m.cycle + UInt64.ofNat size ∧ n.switches.paused = false := by
  induction size generalizing m with
  | zero =>
    obtain rfl : m = n := Outcome.done.inj h
    exact ⟨(UInt64.add_zero _).symm, hrun⟩
  | succ size ih =>
    obtain ⟨l, hl, hrest⟩ := steps_succ_done h
    obtain ⟨hfirst, hruns⟩ := cycle_step hrun hl
    obtain ⟨hothers, hend⟩ := ih hruns hrest
    refine ⟨?_, hend⟩
    rw [hothers, hfirst, UInt64.add_assoc, Nat.add_comm size, UInt64.ofNat_add]
    rfl

/-- **Frames count their steps.** -/
theorem cycle_frames {size k : Nat} (hrun : m.switches.paused = false)
    (h : frames size k m = .done n) : n.cycle = m.cycle + UInt64.ofNat (k * size) := by
  induction k generalizing m with
  | zero =>
    obtain rfl : m = n := Outcome.done.inj h
    rw [Nat.zero_mul]
    exact (UInt64.add_zero _).symm
  | succ k ih =>
    obtain ⟨l, hl, hrest⟩ := frames_succ_done h
    obtain ⟨hfirst, hruns⟩ := cycle_steps hrun hl
    have hothers : n.cycle = l.cycle + UInt64.ofNat (k * size) := ih (m := l.tick) hruns hrest
    rw [hothers, hfirst, UInt64.add_assoc, Nat.succ_mul, Nat.add_comm, UInt64.ofNat_add]

/-- So many steps and a tick, over and over. -/
def frameOperations (size k : Nat) : List Operation :=
  (List.replicate k [Operation.steps size, .tick]).flatten

/-- Frames that are done are their steps and ticks, one after the other. -/
theorem after_frameOperations {size k : Nat} (h : frames size k m = .done n) :
    m.after (frameOperations size k) = n := by
  induction k generalizing m with
  | zero => exact Outcome.done.inj h
  | succ k ih =>
    obtain ⟨l, hl, hrest⟩ := frames_succ_done h
    have hfirst : ((Operation.steps size).apply m).state = l := by
      show (steps size m).state = l
      rw [hl, Outcome.state_done]
    rw [← ih hrest, ← hfirst]
    rfl

/-- Frames that fail do so in one of them, all before it being done. -/
theorem frames_failed {size k : Nat} {fault : Fault} (h : frames size k m = .failed fault n) :
    ∃ j < k, ∃ a, frames size j m = .done a ∧ steps size a = .failed fault n := by
  induction k generalizing m with
  | zero => cases h
  | succ k ih =>
    cases hsteps : steps size m with
    | failed fault' l =>
      rw [frames, frame, hsteps] at h
      exact ⟨0, Nat.succ_pos k, m, rfl, hsteps.trans h⟩
    | done l =>
      rw [frames_succ_of_done hsteps] at h
      obtain ⟨j, hj, a, ha, hfail⟩ := ih h
      exact ⟨j + 1, Nat.succ_lt_succ hj, a, (frames_succ_of_done hsteps).trans ha, hfail⟩

/-- A machine that always takes its step, and still does after it and after a tick, takes any number of
frames. -/
theorem frames_done_of_step {P : Machine ρ → Prop} (hstep : ∀ l, P l → ∃ l', l.step = .done l' ∧ P l')
    (htick : ∀ l, P l → P l.tick) (hm : P m) (size k : Nat) : ∃ n, frames size k m = .done n ∧ P n := by
  have hsteps : ∀ (count : Nat) (l : Machine ρ), P l → ∃ l', steps count l = .done l' ∧ P l' := by
    intro count
    induction count with
    | zero => exact fun l hl => ⟨l, rfl, hl⟩
    | succ count ih =>
      intro l hl
      obtain ⟨a, ha, hnext⟩ := hstep l hl
      obtain ⟨b, hb, hend⟩ := ih a hnext
      exact ⟨b, by rw [steps_succ, ha, Outcome.done_andThen, hb], hend⟩
  induction k generalizing m with
  | zero => exact ⟨m, rfl, hm⟩
  | succ k ih =>
    obtain ⟨a, ha, hnext⟩ := hsteps size m hm
    obtain ⟨n, hn, hend⟩ := ih (htick a hnext)
    exact ⟨n, (frames_succ_of_done ha).trans hn, hend⟩

end Machine

namespace CommandLine.Runner

/-! ## What the viewer answers -/

variable {asked shown : Nat}

theorem after_counting (screens : List Screen) :
    (counting (some asked)).after shown screens = shown + screens.length := by
  induction screens generalizing shown with
  | nil => rfl
  | cons screen screens ih =>
    rw [List.length_cons, Nat.add_comm screens.length, ← Nat.add_assoc]
    exact ih

/-- Frames pass as long as there are fewer than asked for. -/
theorem answers_counting {screens : List Screen} {j : Nat} (hlength : screens.length = j)
    (h : shown + j < max asked (shown + 1)) :
    (counting (some asked)).answers shown screens = List.replicate j .proceed := by
  subst hlength
  induction screens generalizing shown with
  | nil => rfl
  | cons screen screens ih =>
    rw [List.length_cons] at h
    have hmore : ¬ asked ≤ shown + 1 := by omega
    have hfirst : (counting (some asked) shown screen).2 = .proceed := by
      simp only [counting, if_neg hmore]
    have hothers : (counting (some asked)).answers (shown + 1) screens
        = List.replicate screens.length .proceed := ih (by omega)
    show (counting (some asked) shown screen).2 :: _ = _
    rw [hfirst, List.length_cons, List.replicate_succ]
    exact congrArg (_ :: ·) hothers

/-- The frame that makes up the number is the last. -/
theorem answers_counting_last {screens : List Screen} {k : Nat} (screen : Screen)
    (hlength : screens.length = k) (h : max asked 1 = k + 1) :
    (counting (some asked)).answers 0 (screens ++ [screen])
      = List.replicate k .proceed ++ [.stop] := by
  have hpass : (counting (some asked)).answers 0 screens = List.replicate k .proceed :=
    answers_counting hlength (by omega)
  have henough : asked ≤ 0 + k + 1 := by omega
  rw [Viewer.answers_append, hpass, after_counting, hlength]
  simp only [counting, if_pos henough]

/-! ## The run -/

variable {s : Settings} {e : Emulator ChaCha} {n : Machine ChaCha}

theorem advance_of_frames_done (hcycles : s.cycles = none) (hframes : s.frames = some asked)
    (hlimit : asked < UInt64.size)
    (h : e.machine.frames e.pace.stepsPerFrame (max asked 1) = .done n) :
    advance s frameLimit e 0 = .stopped ⟨n, e.pace⟩ (max asked 1) := by
  obtain ⟨k, hk⟩ : ∃ k, max asked 1 = k + 1 := ⟨max asked 1 - 1, by omega⟩
  rw [hk] at h ⊢
  obtain ⟨a, b, ha, hb, -⟩ := Machine.frames_done_succ h
  have hanswers := answers_counting_last b.screen (Machine.screens_spec ha).1 hk
  rw [← Machine.screens_concat ha hb] at hanswers
  have hroom : k < frameLimit := by
    show k < UInt64.size
    have : 1 < UInt64.size := by decide
    omega
  unfold advance
  rw [hcycles, hframes]
  refine (Emulator.run_stops h hanswers hroom).trans ?_
  rw [after_counting, (Machine.screens_spec h).1, Nat.zero_add]

theorem advance_of_frames_failed {fault : Fault} (hcycles : s.cycles = none)
    (hframes : s.frames = some asked) (hlimit : asked < UInt64.size)
    (h : e.machine.frames e.pace.stepsPerFrame (max asked 1) = .failed fault n) :
    ∃ j < max asked 1, advance s frameLimit e 0 = .failed fault ⟨n, e.pace⟩ j := by
  obtain ⟨j, hj, a, ha, hfail⟩ := Machine.frames_failed h
  have hlength := (Machine.screens_spec ha).1
  have hpass : (counting (some asked)).answers 0 (e.machine.screens e.pace.stepsPerFrame j)
      = List.replicate j .proceed := answers_counting hlength (by omega)
  have hroom : j < frameLimit := by
    show j < UInt64.size
    have : 1 < UInt64.size := by decide
    omega
  refine ⟨j, hj, ?_⟩
  unfold advance
  rw [hcycles, hframes]
  refine (Emulator.run_fails ha hpass hfail hroom).trans ?_
  rw [after_counting, hlength, Nat.zero_add]

/-! ## Before the run -/

/-- A program that fits is loaded into a machine that runs, and traces if the settings say so. -/
theorem start_done (s : Settings) (entropy : ChaCha) {program : List UInt8}
    (hfits : program.length ≤ Region.programLength) :
    ∃ memory, Memory.fresh.load program = .ok memory ∧ start s entropy program
      = .done ⟨{ Machine.powerOn (s.generator entropy) with
          switches := ⟨s.debug, false⟩, memory := memory }, s.pace⟩ := by
  obtain ⟨memory, hload, -⟩ := Machine.load_powerOn (s.generator entropy) program hfits
  refine ⟨memory, hload, ?_⟩
  have hloaded : ({ Machine.powerOn (s.generator entropy) with switches := ⟨s.debug, false⟩ } :
      Machine ChaCha).load program = .done { Machine.powerOn (s.generator entropy) with
        switches := ⟨s.debug, false⟩, memory := memory } := by
    unfold Machine.load
    rw [show (Machine.powerOn (s.generator entropy)).memory = .fresh from rfl, hload]
  exact congrArg (Outcome.map fun m => (⟨m, s.pace⟩ : Emulator ChaCha)) hloaded

/-- A right command line and a program that fits come to a run. -/
theorem prepare_ok {read : ReadFile} {entropy : ChaCha} {args : List String} {file : String}
    {program : List UInt8} (hargs : command.read args = .ok ⟨s, some file⟩) (hhelp : s.help = false)
    (hfile : read file = .ok program) (hstart : start s entropy program = .done e) :
    prepare read entropy args = .ok (s, e) := by
  simp only [prepare, withSettings, hargs, hhelp, hfile, hstart, Bool.false_eq_true, if_false]

section Report

variable {read : ReadFile} {entropy : ChaCha} {args : List String} {pace : Pace} {k : Nat}

theorem run_of_stopped (hprepare : prepare read entropy args = .ok (s, e))
    (h : advance s frameLimit e 0 = .stopped ⟨n, pace⟩ k) :
    run read entropy args = conclude s n none := by
  simp only [run, hprepare, h]

theorem run_of_failed {fault : Fault} (hprepare : prepare read entropy args = .ok (s, e))
    (h : advance s frameLimit e 0 = .failed fault ⟨n, pace⟩ k) :
    run read entropy args = conclude s n (some fault) := by
  simp only [run, hprepare, h]

end Report

/-- **The run stops with the frame that makes up the number, and shows at least one.**  Take a command line
that names a file and asks for a number of frames and not for a number of cycles, and let the file be a
program that fits.
  * The program is loaded, at the pace that was asked for, or ten steps to a frame.
  * If no step fails in so many frames, or in one frame if none was asked for, the run stops after these
    frames and the report has exit code zero.  The machine has taken their steps, a tick after each
    frame's, and the cycle count is the number of the steps.
  * So the run shows as many frames as were asked for if that is one at least, and in no other case.
  * If a step fails, the run fails with it, after fewer frames. -/
theorem stopped_after_frames (read : ReadFile) (entropy : ChaCha) {args : List String} {file : String}
    {program : List UInt8} (hargs : command.read args = .ok ⟨s, some file⟩) (hhelp : s.help = false)
    (hfile : read file = .ok program) (hfits : program.length ≤ Region.programLength)
    (hcycles : s.cycles = none) (hframes : s.frames = some asked) :
    let size := s.speed.getD 10
    let shown := max asked 1
    ∃ m, start s entropy program = .done ⟨m, s.pace⟩
      ∧ prepare read entropy args = .ok (s, ⟨m, s.pace⟩) ∧ s.pace.stepsPerFrame = size
      ∧ (∀ n, m.frames size shown = .done n →
        advance s frameLimit ⟨m, s.pace⟩ 0 = .stopped ⟨n, s.pace⟩ shown
        ∧ run read entropy args = conclude s n none ∧ (conclude s n none).code = 0
        ∧ m.after (Machine.frameOperations size shown) = n
        ∧ n.cycle = UInt64.ofNat (shown * size)
        ∧ (advance s frameLimit ⟨m, s.pace⟩ 0 = .stopped ⟨n, s.pace⟩ asked ↔ 1 ≤ asked))
      ∧ ∀ fault n, m.frames size shown = .failed fault n →
        ∃ j < shown, advance s frameLimit ⟨m, s.pace⟩ 0 = .failed fault ⟨n, s.pace⟩ j
          ∧ run read entropy args = conclude s n (some fault) := by
  intro size shown
  obtain ⟨memory, -, hstart⟩ := start_done s entropy hfits
  have hprepare := prepare_ok hargs hhelp hfile hstart
  have hlimit : asked < UInt64.size := (fits_of_read hargs).frames asked hframes
  generalize hm : ({ Machine.powerOn (s.generator entropy) with
    switches := ⟨s.debug, false⟩, memory := memory } : Machine ChaCha) = m at hstart hprepare
  refine ⟨m, hstart, hprepare, rfl, ?_, ?_⟩
  · intro n hdone
    have hadvance : advance s frameLimit ⟨m, s.pace⟩ 0 = .stopped ⟨n, s.pace⟩ shown :=
      advance_of_frames_done hcycles hframes hlimit hdone
    have hcycle := Machine.cycle_frames (by rw [← hm]) hdone
    have hzero : m.cycle = 0 := by
      rw [← hm]
      rfl
    refine ⟨hadvance, run_of_stopped hprepare hadvance, rfl, Machine.after_frameOperations hdone,
      ?_, ?_⟩
    · rw [hcycle, hzero, UInt64.zero_add]
    · rw [hadvance]
      constructor
      · intro hsame
        have hshown : max asked 1 = asked := (RunEnd.stopped.inj hsame).2
        omega
      · intro hasked
        have hshown : shown = asked := by
          show max asked 1 = asked
          omega
        rw [hshown]
  · intro fault n hfailed
    obtain ⟨j, hj, hadvance⟩ :=
      advance_of_frames_failed (e := ⟨m, s.pace⟩) hcycles hframes hlimit hfailed
    exact ⟨j, hj, hadvance, run_of_failed hprepare hadvance⟩

/-- The program of one word, a jump to itself, runs for any number of frames. -/
theorem start_jumping (s : Settings) (entropy : ChaCha) :
    ∃ m, start s entropy [0x12, 0x00] = .done ⟨m, s.pace⟩ ∧ m.cycle = 0
      ∧ m.switches.paused = false ∧ ∀ size k, ∃ n, m.frames size k = .done n := by
  have hfits : ([0x12, 0x00] : List UInt8).length ≤ Region.programLength := by decide
  obtain ⟨memory, hload, hstart⟩ := start_done s entropy hfits
  refine ⟨_, hstart, rfl, rfl, fun size k => ?_⟩
  have hjump : Instruction.ofWord? 0x1200 = some (.jump 0x200) := by decide
  let Home (l : Machine ChaCha) : Prop :=
    l.memory = memory ∧ l.pc = 0x200 ∧ l.switches.paused = false
  have hstep : ∀ l, Home l → ∃ l', l.step = .done l' ∧ Home l' := by
    rintro l ⟨hmemory, hpc, hrun⟩
    have hfetch : l.fetch = .ok 0x1200 :=
      Machine.fetch_load (hmemory ▸ hload) (k := 0) (by rw [hpc]; rfl) rfl rfl (by decide)
    rw [Machine.step_of_upcoming (Machine.upcoming_eq_some_iff.mpr ⟨hrun, hfetch⟩),
      Machine.executeWord, hjump]
    exact ⟨_, rfl, hmemory, rfl, hrun⟩
  obtain ⟨n, hn, -⟩ := Machine.frames_done_of_step hstep (fun l hl => hl)
    (m := { Machine.powerOn (s.generator entropy) with
      switches := ⟨s.debug, false⟩, memory := memory }) ⟨rfl, rfl, rfl⟩ size k
  exact ⟨n, hn⟩

/-- Two frames of three steps are six cycles. -/
theorem stopped_after_frames_two :
    let read : ReadFile := fun _ => .ok [0x12, 0x00]
    let args := ["rom.ch8", "--frames", "2", "--speed=3"]
    let s : Settings := { Settings.standard with frames := some 2, speed := some 3 }
    command.read args = .ok ⟨s, some "rom.ch8"⟩ ∧ s.help = false ∧ s.cycles = none
    ∧ s.frames = some 2 ∧ ([0x12, 0x00] : List UInt8).length ≤ Region.programLength
    ∧ ∃ e n, prepare read (ChaCha.ofSeed 7) args = .ok (s, e)
      ∧ e.machine.frames 3 2 = .done n ∧ n.cycle = 6
      ∧ advance s frameLimit e 0 = .stopped ⟨n, s.pace⟩ 2
      ∧ run read (ChaCha.ofSeed 7) args = conclude s n none := by
  intro read args s
  have hargs : command.read args = .ok ⟨s, some "rom.ch8"⟩ := rfl
  have hfits : ([0x12, 0x00] : List UInt8).length ≤ Region.programLength := by decide
  obtain ⟨m, hstart, hprepare, -, hdone, -⟩ := stopped_after_frames read (ChaCha.ofSeed 7)
    hargs rfl rfl hfits rfl rfl
  obtain ⟨m', hstart', -, -, hframes⟩ := start_jumping s (ChaCha.ofSeed 7)
  obtain rfl : m = m' :=
    congrArg Emulator.machine (Outcome.done.inj (hstart.symm.trans hstart'))
  obtain ⟨n, hn⟩ := hframes 3 2
  obtain ⟨-, hrun, -, -, hcycle, hstops⟩ := hdone n hn
  exact ⟨hargs, rfl, rfl, rfl, hfits, _, n, hprepare, hn, hcycle, hstops.mpr (by decide), hrun⟩

/-- A run of zero frames is not one of zero instructions.  Whoever asks for no frame is shown one, and the
program has taken ten steps. -/
theorem no_frames_show_one :
    let read : ReadFile := fun _ => .ok [0x12, 0x00]
    let args := ["rom.ch8", "--frames", "0"]
    let s : Settings := { Settings.standard with frames := some 0 }
    command.read args = .ok ⟨s, some "rom.ch8"⟩ ∧ s.cycles = none ∧ s.frames = some 0
    ∧ ∃ e n, prepare read (ChaCha.ofSeed 7) args = .ok (s, e)
      ∧ advance s frameLimit e 0 = .stopped ⟨n, s.pace⟩ 1 ∧ n.cycle = 10
      ∧ run read (ChaCha.ofSeed 7) args = conclude s n none := by
  intro read args s
  have hargs : command.read args = .ok ⟨s, some "rom.ch8"⟩ := rfl
  obtain ⟨m, hstart, hzero, hruns, hframes⟩ := start_jumping s (ChaCha.ofSeed 7)
  have hprepare : prepare read (ChaCha.ofSeed 7) args = .ok (s, ⟨m, s.pace⟩) :=
    prepare_ok hargs rfl rfl hstart
  obtain ⟨n, hn⟩ := hframes 10 1
  have hasked : s.frames = some 0 := rfl
  have hlimit : 0 < UInt64.size := by decide
  have hadvance : advance s frameLimit ⟨m, s.pace⟩ 0 = .stopped ⟨n, s.pace⟩ 1 :=
    advance_of_frames_done rfl hasked hlimit hn
  have hcycle : n.cycle = 10 := by
    rw [Machine.cycle_frames hruns hn, hzero]
    rfl
  exact ⟨hargs, rfl, hasked, _, n, hprepare, hadvance, hcycle, run_of_stopped hprepare hadvance⟩

end CommandLine.Runner

end Chip8
