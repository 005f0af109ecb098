/-
  The runner.

  Loads a program and runs it without a window — either a fixed number of instructions, or frames
  until one of them fails or as many have been shown as were asked for.  Then it reports the registers
  and, on request, the screen.

  The number of frames is compared after each frame, so a run of zero frames still shows one.
-/
import Chip8.CommandLine.Program
import Chip8.Machine.Report
import Chip8.Random.ChaCha

namespace Chip8.CommandLine.Runner

/-! ## Settings -/

/-- What the options say. -/
structure Settings where
  help : Bool
  debug : Bool
  cycles : Option Nat
  speed : Option Nat
  framesPerSecond : Nat
  frames : Option Nat
  seed : Option Nat
  screen : Bool
deriving DecidableEq, Repr

/-- The settings of an empty command line. -/
def Settings.standard : Settings where
  help := false
  debug := false
  cycles := none
  speed := none
  framesPerSecond := Pace.standard.framesPerSecond
  frames := none
  seed := none
  screen := false

/-- The command line of the runner. -/
def command : Command Settings where
  name := "chipper"
  fileHelp := "Load a ROM to run on Chipper."
  initial := .standard
  options :=
    [⟨some 'h', "help", "Print this help message.", .switch fun s => { s with help := true }⟩,
     ⟨some 'd', "debug", "Print each instruction as it executes.",
       .switch fun s => { s with debug := true }⟩,
     ⟨some 'c', "cycles", "Execute exactly this many instructions, then stop.",
       .number fun n s => { s with cycles := some n }⟩,
     ⟨some 's', "speed", "Set the instructions-per-frame rate.",
       .number fun n s => { s with speed := some n }⟩,
     ⟨some 'f', "frame-rate", "Set the frame rate. 0 runs as fast as possible. (default: 60)",
       .number fun n s => { s with framesPerSecond := n }⟩,
     ⟨some 'n', "frames", "Stop after this many frames.",
       .number fun n s => { s with frames := some n }⟩,
     ⟨some 'r', "seed", "Seed the random number generator.",
       .number fun n s => { s with seed := some n }⟩,
     ⟨none, "screen", "Print the screen on exit.", .switch fun s => { s with screen := true }⟩]

/-! ## Running -/

/-- The pace the settings ask for. -/
def Settings.pace (s : Settings) : Pace :=
  ⟨s.speed.getD Pace.standard.stepsPerFrame, s.framesPerSecond⟩

/-- The generator the settings ask for, or the one given. -/
def Settings.generator (s : Settings) (entropy : ChaCha) : ChaCha :=
  match s.seed with
  | some seed => ChaCha.ofSeed (UInt64.ofNat seed)
  | none => entropy

/-- A machine with the program loaded, ready to run. -/
def start (s : Settings) (entropy : ChaCha) (program : List UInt8) :
    Outcome (Emulator ChaCha) :=
  let m := Machine.powerOn (s.generator entropy)
  let m := { m with switches := { m.switches with tracing := s.debug } }
  (m.load program).map fun m => ⟨m, s.pace⟩

/-- A viewer that counts the frames it is shown and stops when there were enough. -/
def counting (frames : Option Nat) : Viewer Nat := fun shown _ =>
  let shown := shown + 1
  match frames with
  | some frames => (shown, if frames ≤ shown then .stop else .proceed)
  | none => (shown, .proceed)

/-- Run what was asked for, at most `limit` frames of it, with `shown` frames behind. -/
def advance (s : Settings) (limit : Nat) (e : Emulator ChaCha) (shown : Nat) : RunEnd ChaCha Nat :=
  match s.cycles with
  | some cycles =>
      match e.runSteps cycles with
      | .done e => .stopped e shown
      | .failed f e => .failed f e shown
  | none => Emulator.run (counting s.frames) limit e shown

/-! ## Reporting -/

/-- What is printed of the machine at the end. -/
def closing (s : Settings) (m : Machine ChaCha) : String :=
  m.dump ++ (if s.screen then m.screen.text else "")

/-- The report on a run that ended with this machine — what it traced, then the closing text. -/
def conclude (s : Settings) (m : Machine ChaCha) (fault? : Option Fault) : Report :=
  let output := m.traceText ++ closing s m
  match fault? with
  | none => ⟨0, output, ""⟩
  | some (.error e) =>
      ⟨1, output, Style.alarm.paint e.message ++ "\n" ++ Report.failureLine e⟩
  | some (.crash c) => ⟨101, m.traceText, c.message?.getD "" ++ "\n"⟩

/-- The report on a program that could not be loaded. -/
def refuse : Fault → Report
  | .error e => ⟨1, "", Report.failureLine e⟩
  | .crash c => ⟨101, "", c.message?.getD "" ++ "\n"⟩

/-- Everything before the run — the command line, the file, the machine. -/
def prepare (read : ReadFile) (entropy : ChaCha) (args : List String) :
    Except Report (Settings × Emulator ChaCha) :=
  withSettings command (·.help) args fun s file =>
    match read file with
    | .error e => .error (refuse (.error (.file e)))
    | .ok program =>
        match start s entropy program with
        | .failed f _ => .error (refuse f)
        | .done e => .ok (s, e)

/-- No run is followed for more frames than this. -/
def frameLimit : Nat := UInt64.size

/-- The whole program. -/
def run (read : ReadFile) (entropy : ChaCha) (args : List String) : Report :=
  match prepare read entropy args with
  | .error report => report
  | .ok (s, e) =>
      match advance s frameLimit e 0 with
      | .stopped e _ | .unfinished e _ => conclude s e.machine none
      | .failed f e _ => conclude s e.machine (some f)

end Chip8.CommandLine.Runner
