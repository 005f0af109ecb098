/-
  Files in folders.

  A tree of files, and reading the file at a path in it.  A path is walked part by part, from the top
  if it begins with a slash and from the working folder if not:
    * an empty part and `.` stay, `..` goes up, and up from the top stays at the top;
    * below a file there is nothing, not even behind a trailing slash;
    * what the walk ends at must be a file.
  The walk stops at the first part that fails.  Before it begins, a path with a zero byte and a path
  that is too long are refused, in this order; then an empty one, which names nothing.
-/
import Chip8.Fault

namespace Chip8.CommandLine

/-- A file, or a folder of named entries. -/
inductive FileTree where
  | file (content : List UInt8)
  | folder (entries : List (String × FileTree))

namespace FileTree

/-! ## Walks -/

/-- Where a walk stands, with the folders around it, the nearest first. -/
structure Place where
  here : FileTree
  around : List FileTree

/-- The most bytes a part of a path may have. -/
def partLimit : Nat := 255

/-- The most bytes a path may have. -/
def pathLimit : Nat := 4095

/-- One part of a path. -/
def enter (place : Place) (part : String) : Except FileError Place :=
  match place.here with
  | .file _ => .error .notDirectory
  | .folder entries =>
      match part with
      | "" | "." => .ok place
      | ".." =>
          match place.around with
          | [] => .ok place
          | outer :: around => .ok ⟨outer, around⟩
      | name =>
          if partLimit < name.utf8ByteSize then .error .nameTooLong
          else
            match entries.lookup name with
            | some tree => .ok ⟨tree, place.here :: place.around⟩
            | none => .error .notFound

/-- Several parts, one after the other. -/
def walk (place : Place) (parts : List String) : Except FileError Place := parts.foldlM enter place

/-- The content of the file at a path, seen from the working folder. -/
def read (top : FileTree) (working : List String) (path : String) :
    Except FileError (List UInt8) := do
  if path.toList.contains '\x00' then .error .zeroByte
  if pathLimit < path.utf8ByteSize then .error .nameTooLong
  if path.isEmpty then .error .notFound
  let start ← if path.startsWith "/" then pure ⟨top, []⟩ else walk ⟨top, []⟩ working
  match (← walk start (path.splitOn "/")).here with
  | .file content => return content
  | .folder _ => .error .isDirectory

/-! ## A usual system -/

/-- The usual folders of a system, empty but for the null file and the working folder. -/
def usual (files : List (String × FileTree)) : FileTree :=
  let others := ["bin", "boot", "etc", "home", "lib", "media", "mnt", "opt", "proc", "root", "run",
    "sbin", "srv", "sys", "usr", "var"]
  .folder (("dev", .folder [("null", .file [])]) :: ("tmp", .folder [("work", .folder files)])
    :: others.map fun name => (name, .folder []))

/-- Read a file from a working folder with the given files in a usual system. -/
def readUsual (files : List (String × FileTree)) (path : String) : Except FileError (List UInt8) :=
  read (usual files) ["tmp", "work"] path

end FileTree

end Chip8.CommandLine
