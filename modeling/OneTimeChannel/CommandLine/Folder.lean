/-
  A working directory as a value.

  Beside its files there are only directories that a path can name without knowing any of them: the
  working directory, those above it, and the root.  A path is followed from left to right: an empty
  name and `.` stay, `..` goes up, and any other name is that of a file, present or not.  So only
  the last name may be one; behind a file nothing is found, and behind nothing neither.

  A file that was saved is loaded again by the same path (`load_save`).

  Core only.
-/
import OneTimeChannel.CommandLine.Host
import OneTimeChannel.Text.Fields

namespace OneTimeChannel.CommandLine

/-! ## Paths -/

/-- A directory. -/
inductive Directory where
  | root
  /-- That many levels above the working directory. -/
  | above (levels : Nat)
  deriving DecidableEq, Repr

namespace Directory

def working : Directory := above 0

/-- The root is its own parent. -/
def parent : Directory → Directory
  | root => root
  | above levels => above (levels + 1)

end Directory

/-- What follows the name of a file in a path. -/
inductive Ending where
  | nothing
  /-- Slashes only. -/
  | slash
  /-- Other names. -/
  | names
  deriving DecidableEq, Repr

/-- Where a path leads. -/
inductive Location where
  | directory (d : Directory)
  | file (d : Directory) (name : String) (ending : Ending)
  deriving DecidableEq, Repr

/-- The most bytes of a path, and of a name in it. -/
def maxPath : Nat := 4095

def maxName : Nat := 255

namespace Location

/-- Follows names from a directory. -/
def follow (d : Directory) : List String → Location
  | [] => directory d
  | name :: rest =>
    if name = "" ∨ name = "." then follow d rest
    else if name = ".." then follow d.parent rest
    else if rest = [] then file d name .nothing
    else file d name (if rest.all String.isEmpty then .slash else .names)

/-- Where a path leads from the working directory. -/
def ofPath (path : String) : Except FileError Location :=
  if path.toList.contains '\x00' then .error .nulByte
  else if path = "" then .error .notFound
  else if maxPath < path.utf8ByteSize then .error .nameTooLong
  else
    let start : Directory := if path.toList.head? = some '/' then .root else .working
    .ok (follow start ((Text.split '/' path.toList).map String.ofList))

end Location

/-! ## Files -/

/-- The files of the working directory, and those that were saved elsewhere. -/
structure Folder where
  files : List ((Directory × String) × Bytes) := []

namespace Folder

def find? (f : Folder) (d : Directory) (name : String) : Option Bytes :=
  (f.files.find? fun entry => entry.1 == (d, name)).map fun entry => entry.2

/-- Why a name does not lead to a directory. -/
def obstacle (f : Folder) (d : Directory) (name : String) : FileError :=
  if maxName < name.utf8ByteSize then .nameTooLong
  else if (f.find? d name).isSome then .notDirectory
  else .notFound

/-- The content of a file. -/
def load (f : Folder) (path : String) : Except FileError Bytes :=
  match Location.ofPath path with
  | .error e => .error e
  | .ok (.directory _) => .error .isDirectory
  | .ok (.file d name ending) =>
    match f.find? d name, ending with
    | some bytes, .nothing => .ok bytes
    | _, _ => .error (f.obstacle d name)

/-- Gives a file a content. -/
def save (f : Folder) (path : String) (bytes : Bytes) : Except FileError Folder :=
  match Location.ofPath path with
  | .error e => .error e
  | .ok (.directory _) => .error .isDirectory
  | .ok (.file d name .nothing) =>
    if maxName < name.utf8ByteSize then .error .nameTooLong
    else .ok ⟨((d, name), bytes) :: f.files⟩
  | .ok (.file _ _ .slash) => .error .isDirectory
  | .ok (.file d name .names) => .error (f.obstacle d name)

/-- Whether a path leads to a file or a directory. -/
def isPresent (f : Folder) (path : String) : Bool :=
  match Location.ofPath path with
  | .error _ => false
  | .ok (.directory _) => true
  | .ok (.file d name ending) => (f.find? d name).isSome && ending == .nothing

/-- A working directory with the given files. -/
def ofFiles (files : List (String × Bytes)) : Folder :=
  ⟨files.map fun (name, bytes) => ((.working, name), bytes)⟩

theorem load_save {f g : Folder} {path : String} {bytes : Bytes}
    (h : f.save path bytes = .ok g) : g.load path = .ok bytes := by
  unfold save at h
  unfold load
  split at h
  · cases h
  · cases h
  · next d name hpath =>
    rw [hpath]
    split at h
    · cases h
    · cases h
      simp [find?]
  · cases h
  · cases h

end Folder

end OneTimeChannel.CommandLine
