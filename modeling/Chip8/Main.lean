/-
  The executable.

  One executable under two names: called by the lister's name it lists a program, called anything else
  it runs one.  What is listed and how it runs is decided elsewhere; here files are read, frames are
  paced by the clock, and texts are printed.
-/
import Chip8.CommandLine.Lister
import Chip8.CommandLine.Runner

namespace Chip8

/-! ## Files -/

/-- The system's failure of a number; the number of a failed path comes negated. -/
def FileError.ofNumber (number : UInt32) (e : IO.Error) : FileError :=
  let code := if number < 0x80000000 then number.toNat else UInt32.size - number.toNat
  match code with
  | 2 => .notFound
  | 20 => .notDirectory
  | 21 => .isDirectory
  | 36 => .nameTooLong
  | code => .other code (toString e)

/-- Why the system could not read a file. -/
def FileError.ofFailure : IO.Error → FileError
  | .noFileOrDirectory .. => .notFound
  | e@(.inappropriateType _ number _) => .ofNumber number e
  | e@(.invalidArgument _ number _) => .ofNumber number e
  | e@(.permissionDenied _ number _) => .ofNumber number e
  | e@(.otherError number _) => .ofNumber number e
  | e => .other 0 (toString e)

namespace CommandLine

/-- Read a file from the disk. -/
def readDisk (path : String) : IO (Except FileError (List UInt8)) := do
  try
    let bytes ← IO.FS.readBinFile path
    return .ok bytes.data.toList
  catch e => return .error (FileError.ofFailure e)

/-- The one file a command line names, read ahead — a program asks for no other. -/
def readNamed {α : Type} (cmd : Command α) (args : List String) : IO ReadFile := do
  match cmd.read args with
  | .ok ⟨_, some path⟩ =>
      let result ← readDisk path
      return fun _ => result
  | _ => return fun _ => .error .notFound

/-! ## Printing -/

/-- Print a report and give its exit code. -/
def finish (report : Report) : IO UInt32 := do
  let stdout ← IO.getStdout
  let stderr ← IO.getStderr
  stdout.putStr report.output
  stdout.flush
  stderr.putStr report.errors
  return UInt32.ofNat report.code

/-- Run frame by frame, printing the trace as it comes and waiting out the rest of each frame. -/
partial def runLive (s : Runner.Settings) (e : Emulator ChaCha) (shown : Nat) : IO Report := do
  let began ← IO.monoNanosNow
  match Runner.advance s 1 e shown with
  | .stopped e _ => return Runner.conclude s e.machine none
  | .failed f e _ => return Runner.conclude s e.machine (some f)
  | .unfinished e shown =>
      let stdout ← IO.getStdout
      stdout.putStr e.machine.traceText
      stdout.flush
      let spent := (← IO.monoNanosNow) - began
      IO.sleep (UInt32.ofNat ((e.pace.frameNanoseconds - spent) / 1000000))
      runLive s { e with machine := e.machine.clearTrace } shown

end CommandLine

end Chip8

open Chip8 Chip8.CommandLine

/-- The entry of the executable. -/
def main (args : List String) : IO UInt32 := do
  if (← IO.appPath).fileName == some Lister.command.name then
    finish (Lister.run (← readNamed Lister.command args) args)
  else
    let entropy := ChaCha.ofKeyBytes (← IO.getRandomBytes 32).data.toList
    match Runner.prepare (← readNamed Runner.command args) entropy args with
    | .error report => finish report
    | .ok (s, e) => finish (← runLive s e 0)
