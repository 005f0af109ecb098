/-
  Runs, frame by frame.

  A run of frames has three ways out — the viewer asks to stop, a step fails, the limit is reached — and
  between its turns it asks a viewer that remembers what it likes.  Take the viewer away, and what is
  left is a repetition (`Machine.frames`): so many steps, one tick, and again.
  1. **What there is to see** (`Machine.screens`).  A list of screens, one for each frame; the one at
     place j is that of the machine after j frames and the steps of one more, its tick still to come
     (`screens_spec`).
  2. **The viewer is a function of that list** — what it remembers after it (`Viewer.after`) and what it
     has answered to it (`Viewer.answers`).  A viewer can be made to keep the list, and answers no
     differently for it (`Viewer.recorded`).
  3. **The crux** (`run_of_proceed`).  As long as the viewer lets frames pass, a run is the run from the
     machine those frames lead to, with as much less of its limit left.  Each way out is one more turn
     of the loop.

  How many frames go into a second plays no part: runs that differ in it only end alike (`run_congr`).
-/
import Chip8.Emulator.Run
import Chip8.Proofs.Run

namespace Chip8

variable {ρ σ σ' : Type}

/-! ## Frames that nobody sees -/

namespace Machine

variable [ByteSource ρ]

/-- So many steps and a tick. -/
def frame (size : Nat) (m : Machine ρ) : Outcome (Machine ρ) :=
  (steps size m).andThen fun n => .done n.tick

/-- A number of frames, up to the first that fails. -/
def frames (size : Nat) : Nat → Machine ρ → Outcome (Machine ρ)
  | 0, m => .done m
  | k + 1, m => (m.frame size).andThen (frames size k)

/-- The screens at the end of the steps of each frame, before the tick. -/
def screens (size : Nat) : Nat → Machine ρ → List Screen
  | 0, _ => []
  | k + 1, m =>
      match steps size m with
      | .done n => n.screen :: screens size k n.tick
      | .failed .. => []

variable {size k : Nat} {m n : Machine ρ}

theorem frame_of_done (h : steps size m = .done n) : m.frame size = .done n.tick := by
  rw [frame, h, Outcome.done_andThen]

/-- One frame, and then the others. -/
theorem frames_succ_of_done (h : steps size m = .done n) :
    frames size (k + 1) m = frames size k n.tick := by
  rw [frames, frame_of_done h, Outcome.done_andThen]

theorem frames_succ_done (h : frames size (k + 1) m = .done n) :
    ∃ l, steps size m = .done l ∧ frames size k l.tick = .done n := by
  cases hsteps : steps size m with
  | done l => exact ⟨l, rfl, (frames_succ_of_done hsteps).symm.trans h⟩
  | failed fault l =>
    rw [frames, frame, hsteps] at h
    cases h

theorem frames_add (j k : Nat) (m : Machine ρ) :
    frames size (j + k) m = (frames size j m).andThen (frames size k) := by
  induction j generalizing m with
  | zero => rw [Nat.zero_add]; rfl
  | succ j ih =>
    rw [Nat.succ_add, frames, frames, Outcome.andThen_assoc]
    congr 1
    exact funext ih

/-- The last of some frames that are done. -/
theorem frames_done_succ (h : frames size (k + 1) m = .done n) :
    ∃ a b, frames size k m = .done a ∧ steps size a = .done b ∧ b.tick = n := by
  rw [frames_add k 1] at h
  cases hfirst : frames size k m with
  | failed fault a =>
    rw [hfirst] at h
    cases h
  | done a =>
    rw [hfirst] at h
    obtain ⟨b, hb, hlast⟩ := frames_succ_done h
    exact ⟨a, b, rfl, hb, Outcome.done.inj hlast⟩

theorem screens_succ_of_done (h : steps size m = .done n) :
    screens size (k + 1) m = n.screen :: screens size k n.tick := by
  rw [screens, h]

/-- One more frame adds its screen at the end. -/
theorem screens_concat {a b : Machine ρ} (hframes : frames size k m = .done a)
    (hsteps : steps size a = .done b) : screens size (k + 1) m = screens size k m ++ [b.screen] := by
  induction k generalizing m with
  | zero =>
    obtain rfl : m = a := Outcome.done.inj hframes
    exact screens_succ_of_done hsteps
  | succ k ih =>
    obtain ⟨l, hl, hrest⟩ := frames_succ_done hframes
    rw [screens_succ_of_done hl, screens_succ_of_done hl, ih hrest, List.cons_append]

/-- **The screens of some frames** — one for each, after its steps and before its tick. -/
theorem screens_spec (h : frames size k m = .done n) : (screens size k m).length = k
    ∧ ∀ j < k, ∃ a b, frames size j m = .done a ∧ steps size a = .done b
      ∧ (screens size k m)[j]? = some b.screen := by
  induction k generalizing m with
  | zero => exact ⟨rfl, fun j hj => absurd hj (Nat.not_lt_zero j)⟩
  | succ k ih =>
    obtain ⟨l, hl, hrest⟩ := frames_succ_done h
    obtain ⟨hlength, hscreens⟩ := ih hrest
    rw [screens_succ_of_done hl]
    refine ⟨congrArg Nat.succ hlength, fun j hj => ?_⟩
    rcases j with _ | j
    · exact ⟨m, l, rfl, hl, rfl⟩
    · obtain ⟨a, b, ha, hb, hscreen⟩ := hscreens j (Nat.lt_of_succ_lt_succ hj)
      exact ⟨a, b, (frames_succ_of_done hl).trans ha, hb, hscreen⟩

/-- Steps with a failing one among them fail as it does. -/
theorem steps_of_step_failed {i : Nat} {l l' : Machine ρ} {fault : Fault} (hi : i < size)
    (hdone : steps i n = .done l) (hfail : l.step = .failed fault l') :
    steps size n = .failed fault l' := by
  obtain ⟨rest, rfl⟩ : ∃ rest, size = i + (rest + 1) := ⟨size - i - 1, by omega⟩
  rw [steps_add, hdone, Outcome.done_andThen, steps_succ, hfail, Outcome.failed_andThen]

end Machine

/-! ## Viewers -/

namespace Viewer

/-- What a viewer remembers after some screens. -/
def after (look : Viewer σ) (seen : σ) : List Screen → σ
  | [] => seen
  | screen :: screens => after look (look seen screen).1 screens

/-- What it answers to each of them. -/
def answers (look : Viewer σ) (seen : σ) : List Screen → List Flow
  | [] => []
  | screen :: screens => (look seen screen).2 :: answers look (look seen screen).1 screens

/-- The viewer that keeps every screen it is shown as well. -/
def recorded (look : Viewer σ) : Viewer (σ × List Screen) := fun (seen, shown) screen =>
  (((look seen screen).1, shown ++ [screen]), (look seen screen).2)

variable {look : Viewer σ}

theorem after_append (seen : σ) (screens : List Screen) (screen : Screen) :
    look.after seen (screens ++ [screen]) = (look (look.after seen screens) screen).1 := by
  induction screens generalizing seen with
  | nil => rfl
  | cons first screens ih => exact ih _

theorem answers_append (seen : σ) (screens : List Screen) (screen : Screen) :
    look.answers seen (screens ++ [screen])
      = look.answers seen screens ++ [(look (look.after seen screens) screen).2] := by
  induction screens generalizing seen with
  | nil => rfl
  | cons first screens ih => exact congrArg (_ :: ·) (ih _)

/-- A recording viewer remembers the same, and all it was shown. -/
theorem after_recorded (seen : σ) (shown screens : List Screen) :
    look.recorded.after (seen, shown) screens = (look.after seen screens, shown ++ screens) := by
  induction screens generalizing seen shown with
  | nil => exact congrArg (seen, ·) (List.append_nil shown).symm
  | cons screen screens ih =>
    refine (ih _ _).trans ?_
    rw [List.append_assoc]
    rfl

/-- Recording changes no answer. -/
theorem answers_recorded (seen : σ) (shown screens : List Screen) :
    look.recorded.answers (seen, shown) screens = look.answers seen screens := by
  induction screens generalizing seen shown with
  | nil => rfl
  | cons screen screens ih => exact congrArg (_ :: ·) (ih _ _)

end Viewer

/-! ## Runs -/

/-- The end of a run, its emulator seen through a function. -/
def RunEnd.map (f : Emulator ρ → Emulator ρ) : RunEnd ρ σ → RunEnd ρ σ
  | stopped e seen => stopped (f e) seen
  | failed fault e seen => failed fault (f e) seen
  | unfinished e seen => unfinished (f e) seen

/-- The end of a frame, its emulator seen through a function. -/
def FrameEnd.map (f : Emulator ρ → Emulator ρ) : FrameEnd ρ σ → FrameEnd ρ σ
  | shown e seen flow => shown (f e) seen flow
  | failed fault e => failed fault (f e)

namespace Emulator

/-- The emulator without a wish for its frames per second. -/
def unpaced (e : Emulator ρ) : Emulator ρ := { e with pace := { e.pace with framesPerSecond := 0 } }

variable [ByteSource ρ] {look : Viewer σ} {seen : σ}

/-- Frame after frame, whatever the viewer answers, up to the first that fails. -/
def frames (look : Viewer σ) : Nat → Emulator ρ → σ → Outcome (Emulator ρ)
  | 0, e, _ => .done e
  | k + 1, e, seen =>
      match e.frame look seen with
      | .shown e seen _ => frames look k e seen
      | .failed fault e => .failed fault e

/-- What frames do to the machine, they do whoever looks on. -/
theorem frames_eq (k : Nat) (m : Machine ρ) (pace : Pace) (seen : σ) :
    frames look k ⟨m, pace⟩ seen = (m.frames pace.stepsPerFrame k).map fun n => ⟨n, pace⟩ := by
  induction k generalizing m seen with
  | zero => rfl
  | succ k ih =>
    rw [frames, frame]
    cases hsteps : Machine.steps pace.stepsPerFrame m with
    | done n => exact (ih n.tick _).trans (by rw [Machine.frames_succ_of_done hsteps])
    | failed fault n =>
      rw [Machine.frames, Machine.frame, hsteps]
      rfl

section Turns

variable {pace : Pace} {m n : Machine ρ} {limit : Nat}

theorem run_of_failed {fault : Fault} (h : Machine.steps pace.stepsPerFrame m = .failed fault n) :
    run look (limit + 1) ⟨m, pace⟩ seen = .failed fault ⟨n, pace⟩ seen := by
  simp only [run, frame, h]

theorem run_of_stop (h : Machine.steps pace.stepsPerFrame m = .done n)
    (hstop : (look seen n.screen).2 = .stop) : run look (limit + 1) ⟨m, pace⟩ seen
      = .stopped ⟨n.tick, pace⟩ (look seen n.screen).1 := by
  simp only [run, frame, h, hstop]

theorem run_succ_of_proceed (h : Machine.steps pace.stepsPerFrame m = .done n)
    (hgo : (look seen n.screen).2 = .proceed) : run look (limit + 1) ⟨m, pace⟩ seen
      = run look limit ⟨n.tick, pace⟩ (look seen n.screen).1 := by
  simp only [run, frame, h, hgo]

/-- **Frames that the viewer lets pass** lead a run on to the machine they lead to. -/
theorem run_of_proceed {j : Nat} (hframes : m.frames pace.stepsPerFrame j = .done n)
    (hgo : look.answers seen (m.screens pace.stepsPerFrame j) = List.replicate j .proceed) :
    run look (limit + j) ⟨m, pace⟩ seen
      = run look limit ⟨n, pace⟩ (look.after seen (m.screens pace.stepsPerFrame j)) := by
  induction j generalizing m seen with
  | zero =>
    obtain rfl : m = n := Outcome.done.inj hframes
    rfl
  | succ j ih =>
    obtain ⟨l, hl, hrest⟩ := Machine.frames_succ_done hframes
    rw [Machine.screens_succ_of_done hl] at hgo ⊢
    obtain ⟨hfirst, hothers⟩ := List.cons.inj hgo
    rw [← Nat.add_assoc, run_succ_of_proceed hl hfirst, ih hrest hothers]
    rfl

/-- A run stops with the first frame whose viewer asks for it. -/
theorem run_stops {k : Nat} (hframes : m.frames pace.stepsPerFrame (k + 1) = .done n)
    (hanswers : look.answers seen (m.screens pace.stepsPerFrame (k + 1))
      = List.replicate k .proceed ++ [.stop]) (hlimit : k < limit) :
    run look limit ⟨m, pace⟩ seen
      = .stopped ⟨n, pace⟩ (look.after seen (m.screens pace.stepsPerFrame (k + 1))) := by
  obtain ⟨a, b, ha, hb, rfl⟩ := Machine.frames_done_succ hframes
  rw [Machine.screens_concat ha hb] at hanswers ⊢
  rw [Viewer.answers_append] at hanswers
  obtain ⟨hgo, hlast⟩ := List.append_inj' hanswers rfl
  have hstop := (List.cons.inj hlast).1
  obtain ⟨rest, rfl⟩ : ∃ rest, limit = rest + 1 + k := ⟨limit - k - 1, by omega⟩
  rw [run_of_proceed ha hgo, run_of_stop hb hstop, Viewer.after_append]

/-- A run fails with the first step that does, if no viewer has stopped it before. -/
theorem run_fails {j : Nat} (hframes : m.frames pace.stepsPerFrame j = .done n)
    (hgo : look.answers seen (m.screens pace.stepsPerFrame j) = List.replicate j .proceed)
    {fault : Fault} {l : Machine ρ} (hfail : Machine.steps pace.stepsPerFrame n = .failed fault l)
    (hlimit : j < limit) : run look limit ⟨m, pace⟩ seen
      = .failed fault ⟨l, pace⟩ (look.after seen (m.screens pace.stepsPerFrame j)) := by
  obtain ⟨rest, rfl⟩ : ∃ rest, limit = rest + 1 + j := ⟨limit - j - 1, by omega⟩
  rw [run_of_proceed hframes hgo, run_of_failed hfail]

end Turns

/-- Emulators that a function does not tell apart have runs that it does not tell apart, if that is so of
their frames. -/
theorem run_congr {f : Emulator ρ → Emulator ρ} (hframe : ∀ (e e' : Emulator ρ) (seen : σ),
      f e = f e' → (e.frame look seen).map f = (e'.frame look seen).map f)
    {e e' : Emulator ρ} (h : f e = f e') (limit : Nat) (seen : σ) :
    (run look limit e seen).map f = (run look limit e' seen).map f := by
  induction limit generalizing e e' seen with
  | zero => exact congrArg (RunEnd.unfinished · seen) h
  | succ limit ih =>
    have hends := hframe e e' seen h
    rw [run, run]
    cases hl : e.frame look seen with
    | shown l s flow =>
      cases hl' : e'.frame look seen with
      | failed fault' l' => rw [hl, hl'] at hends; cases hends
      | shown l' s' flow' =>
        rw [hl, hl'] at hends
        obtain ⟨hlast, rfl, rfl⟩ := FrameEnd.shown.inj hends
        cases flow with
        | stop => exact congrArg (RunEnd.stopped · s) hlast
        | proceed => exact ih hlast s
    | failed fault l =>
      cases hl' : e'.frame look seen with
      | shown l' s' flow' => rw [hl, hl'] at hends; cases hends
      | failed fault' l' =>
        rw [hl, hl'] at hends
        obtain ⟨rfl, hlast⟩ := FrameEnd.failed.inj hends
        exact congrArg (RunEnd.failed fault · seen) hlast

/-- The frames per second that are wished for play no part in a frame. -/
theorem frame_unpaced {e e' : Emulator ρ} (seen : σ) (h : e.unpaced = e'.unpaced) :
    (e.frame look seen).map unpaced = (e'.frame look seen).map unpaced := by
  obtain ⟨m, size, rate⟩ := e
  obtain ⟨m', size', rate'⟩ := e'
  obtain ⟨rfl, hpace⟩ := Emulator.mk.inj h
  obtain rfl : size = size' := congrArg Pace.stepsPerFrame hpace
  simp only [frame]
  cases Machine.steps size m <;> rfl

/-- **A run is its frames.**  Whatever the machine, the pace and the viewer, whose answers may depend on all
that it was shown —
    * the screens of frames that are done are one for each frame, after so many frames and the steps
      of one more, and before the tick;
    * if the viewer first asks to stop at the last of k + 1 frames, all of them done, the run stops with
      the machine that they lead to, and the viewer was shown their screens and no other;
    * if the viewer lets j frames pass, and in the next one a step fails, the run fails as the step does,
      with the machine that it left, and the viewer was shown the screens of the j frames;
    * how many frames per second are wished for changes nothing but the wish. -/
theorem run_by_frames (look : Viewer σ) (m : Machine ρ) (pace : Pace) (seen : σ) :
    (∀ k n, m.frames pace.stepsPerFrame k = .done n →
      (m.screens pace.stepsPerFrame k).length = k
      ∧ ∀ j < k, ∃ a b, m.frames pace.stepsPerFrame j = .done a
        ∧ Machine.steps pace.stepsPerFrame a = .done b
        ∧ (m.screens pace.stepsPerFrame k)[j]? = some b.screen)
    ∧ (∀ k n, m.frames pace.stepsPerFrame (k + 1) = .done n →
      let shown := m.screens pace.stepsPerFrame (k + 1)
      look.answers seen shown = List.replicate k .proceed ++ [.stop] → ∀ limit, k < limit →
        run look limit ⟨m, pace⟩ seen = .stopped ⟨n, pace⟩ (look.after seen shown)
        ∧ run look.recorded limit ⟨m, pace⟩ (seen, [])
          = .stopped ⟨n, pace⟩ (look.after seen shown, shown))
    ∧ (∀ j n, m.frames pace.stepsPerFrame j = .done n →
      let shown := m.screens pace.stepsPerFrame j
      look.answers seen shown = List.replicate j .proceed →
      ∀ i l fault l', i < pace.stepsPerFrame → Machine.steps i n = .done l →
        l.step = .failed fault l' → ∀ limit, j < limit →
        run look limit ⟨m, pace⟩ seen = .failed fault ⟨l', pace⟩ (look.after seen shown)
        ∧ run look.recorded limit ⟨m, pace⟩ (seen, [])
          = .failed fault ⟨l', pace⟩ (look.after seen shown, shown))
    ∧ ∀ limit rate, (run look limit ⟨m, { pace with framesPerSecond := rate }⟩ seen).map unpaced
      = (run look limit ⟨m, pace⟩ seen).map unpaced := by
  refine ⟨fun k n hframes => Machine.screens_spec hframes, fun k n hframes => ?_,
    fun j n hframes => ?_, fun limit rate => ?_⟩
  · intro shown hanswers limit hlimit
    have hrecorded : look.recorded.answers (seen, []) shown = _ :=
      (Viewer.answers_recorded seen [] shown).trans hanswers
    refine ⟨run_stops hframes hanswers hlimit, ?_⟩
    rw [run_stops hframes hrecorded hlimit, Viewer.after_recorded, List.nil_append]
  · intro shown hanswers i l fault l' hi hdone hstep limit hlimit
    have hfail := Machine.steps_of_step_failed hi hdone hstep
    have hrecorded : look.recorded.answers (seen, []) shown = _ :=
      (Viewer.answers_recorded seen [] shown).trans hanswers
    refine ⟨run_fails hframes hanswers hfail hlimit, ?_⟩
    rw [run_fails hframes hrecorded hfail hlimit, Viewer.after_recorded, List.nil_append]
  · have hrate : unpaced ⟨m, { pace with framesPerSecond := rate }⟩ = unpaced ⟨m, pace⟩ := rfl
    exact run_congr (fun _ _ seen => frame_unpaced seen) hrate limit seen

/-- Two jumps and then no instruction, one step to a frame, with five on the delay timer.  A viewer that has
enough at its second look leaves three on it; one that has never enough sees two frames as well, and then
the third fails. -/
theorem run_by_frames_two :
    let m : Machine Stepper := { ((Machine.powerOn (Stepper.mk 0 1)).load
      [0x12, 0x02, 0x12, 0x04, 0x00, 0x00]).state with delay := 5 }
    let pace : Pace := ⟨1, 60⟩
    let patient : Viewer Nat := fun looks _ => (looks + 1, .proceed)
    let sated : Viewer Nat := fun looks _ => (looks + 1, if looks = 1 then .stop else .proceed)
    ∃ n l, m.frames 1 2 = .done n ∧ n.delay = 3
      ∧ sated.answers 0 (m.screens 1 2) = [.proceed, .stop]
      ∧ run sated 2 ⟨m, pace⟩ 0 = .stopped ⟨n, pace⟩ 2
      ∧ patient.answers 0 (m.screens 1 2) = [.proceed, .proceed]
      ∧ Machine.steps 0 n = .done n ∧ n.step = .failed (.error (.unimplemented 0)) l
      ∧ run patient 3 ⟨m, pace⟩ 0 = .failed (.error (.unimplemented 0)) ⟨l, pace⟩ 2 := by
  obtain ⟨memory, hload, hloaded⟩ := Machine.load_powerOn (Stepper.mk 0 1)
    [0x12, 0x02, 0x12, 0x04, 0x00, 0x00] (by decide)
  rw [hloaded, Outcome.state_done]
  intro m pace patient sated
  have hjump : Instruction.ofWord? 0x1202 = some (.jump 0x202)
      ∧ Instruction.ofWord? 0x1204 = some (.jump 0x204) ∧ Instruction.ofWord? 0 = none := by decide
  have hfirst : Machine.steps 1 m = .done { m with pc := 0x202, cycle := 1 } := by
    rw [Machine.steps_succ, Machine.step_of_upcoming (Machine.upcoming_eq_some_iff.mpr
      ⟨rfl, Machine.fetch_load hload (k := 0) rfl rfl rfl (w := 0x1202) (by decide)⟩),
      Machine.executeWord, hjump.1]
    rfl
  generalize ha : ({ m with pc := 0x202, cycle := 1 } : Machine Stepper).tick = a
  have hsecond : Machine.steps 1 a = .done { a with pc := 0x204, cycle := 2 } := by
    subst ha
    rw [Machine.steps_succ, Machine.step_of_upcoming (Machine.upcoming_eq_some_iff.mpr
      ⟨rfl, Machine.fetch_load hload (k := 2) rfl rfl rfl (w := 0x1204) (by decide)⟩),
      Machine.executeWord, hjump.2.1]
    rfl
  generalize hn : ({ a with pc := 0x204, cycle := 2 } : Machine Stepper).tick = n
  have hthird : n.step = .failed (.error (.unimplemented 0)) (n.advance 0) := by
    subst hn ha
    rw [Machine.step_of_upcoming (Machine.upcoming_eq_some_iff.mpr
      ⟨rfl, Machine.fetch_load hload (k := 4) rfl rfl rfl (w := 0) (by decide)⟩),
      Machine.executeWord, hjump.2.2]
  have hframes : m.frames 1 2 = .done n := by
    rw [Machine.frames_succ_of_done hfirst, ha, Machine.frames_succ_of_done hsecond, hn]
    rfl
  have hscreens : m.screens 1 2 = [m.screen, a.screen] := by
    rw [Machine.screens_succ_of_done hfirst, ha, Machine.screens_succ_of_done hsecond]
    rfl
  have hsated : sated.answers 0 (m.screens 1 2) = [.proceed, .stop] := by
    rw [hscreens]
    rfl
  have hpatient : patient.answers 0 (m.screens 1 2) = [.proceed, .proceed] := by
    rw [hscreens]
    rfl
  have hstopped := ((run_by_frames sated m pace 0).2.1 1 n hframes hsated 2 (by decide)).1
  have hfailed := ((run_by_frames patient m pace 0).2.2.1 2 n hframes hpatient 0 n _ _
    (by decide) rfl hthird 3 (by decide)).1
  rw [hscreens] at hstopped hfailed
  have hdelay : n.delay = 3 := by
    subst hn ha
    rfl
  exact ⟨n, _, hframes, hdelay, hsated, hstopped, hpatient, rfl, hthird, hfailed⟩

end Emulator

end Chip8
