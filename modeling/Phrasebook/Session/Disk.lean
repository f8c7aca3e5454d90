import Phrasebook.Assoc
import Phrasebook.Path
import Phrasebook.Text.Quoted

/-!
# Disks

A model of a file system: files with their bytes, directories, and a working directory. There are
no links and no permissions. Paths are followed name by name, so that two dots lead up from a
directory that is there.

## Main definitions

* `Disk.place` — where a path leads.
* `Disk.read`, `Disk.write`, `Disk.makeDirectories`, `Disk.filesBelow` — what can be done with a disk.
* `Disk.newDirectories`, `Disk.newFiles` — what one disk has and another has not.
-/

namespace Phrasebook

/-- The names on the way from the root of a disk. -/
abbrev DiskPlace := List Text

/-- A file system. -/
structure Disk where
  /-- The files and their bytes. -/
  files : List (DiskPlace × List UInt8)
  directories : List DiskPlace
  current : DiskPlace
  deriving DecidableEq

/-- What is wrong with a path. -/
inductive DiskFault where
  /-- There is nothing. -/
  | missing
  /-- There is something already. -/
  | present
  | notDirectory
  | isDirectory
  deriving DecidableEq

namespace DiskFault

/-- The number of a fault. -/
def number : DiskFault → Nat
  | missing => 2
  | present => 17
  | notDirectory => 20
  | isDirectory => 21

/-- The wording of a fault. -/
def wording : DiskFault → Text
  | missing => "No such file or directory"
  | present => "File exists"
  | notDirectory => "Not a directory"
  | isDirectory => "Is a directory"

end DiskFault

/-- Why a disk refuses: the fault, and the path that was asked for. -/
structure DiskError where
  fault : DiskFault
  path : Path
  deriving DecidableEq

/-- A refusal as it is shown. -/
def DiskError.message (e : DiskError) : Text :=
  "[Errno " ++ Text.ofNat e.fault.number ++ "] " ++ e.fault.wording ++ ": " ++ e.path.text.quoted

/-- All places on the way to a place, the root first and itself last. -/
def placesTo (p : DiskPlace) : List DiskPlace := (List.range (p.length + 1)).map fun n => p.take n

namespace Disk

/-- The disk with some files; their directories and the working directory are there. -/
def ofFiles (current : DiskPlace) (files : List (DiskPlace × List UInt8)) : Disk :=
  let parents := files.flatMap fun file => placesTo file.1.dropLast
  ⟨files, (placesTo current ++ parents).eraseDups, current⟩

/-- Whether there is a file. -/
def isFile (d : Disk) (p : DiskPlace) : Bool := d.files.any fun file => file.1 == p

/-- Whether there is a directory. -/
def isDirectory (d : Disk) (p : DiskPlace) : Bool := d.directories.contains p

/-- The place where some names lead from a place. -/
def follow (d : Disk) (here : DiskPlace) : List Text → Except DiskFault DiskPlace
  | [] => .ok here
  | name :: rest =>
    if d.isDirectory here then
      d.follow (if name == ".." then here.dropLast else here ++ [name]) rest
    else .error (if d.isFile here then .notDirectory else .missing)

/-- The place where a path leads; there may be nothing at its end. -/
def place (d : Disk) (p : Path) : Except DiskError DiskPlace :=
  (d.follow (if p.anchor.isEmpty then d.current else []) p.names).mapError fun fault => ⟨fault, p⟩

/-- Whether a path leads to a file. -/
def hasFile (d : Disk) (p : Path) : Bool := (d.place p).toOption.any d.isFile

/-- Whether a path leads to a directory. -/
def hasDirectory (d : Disk) (p : Path) : Bool := (d.place p).toOption.any d.isDirectory

/-- The bytes of a file. -/
def read (d : Disk) (p : Path) : Except DiskError (List UInt8) := do
  let place ← d.place p
  match d.files.lookup place with
  | some bytes => .ok bytes
  | none => .error ⟨if d.isDirectory place then .isDirectory else .missing, p⟩

/-- The disk with a file written. -/
def write (d : Disk) (p : Path) (bytes : List UInt8) : Except DiskError Disk := do
  let place ← d.place p
  if d.isDirectory place then .error ⟨.isDirectory, p⟩
  else .ok { d with files := put d.files place bytes }

/-- The disk with a directory made. -/
def makeDirectory (d : Disk) (p : Path) : Except DiskError Disk := do
  let place ← d.place p
  if d.isFile place || d.isDirectory place then .error ⟨.present, p⟩
  else .ok { d with directories := d.directories ++ [place] }

/-- The disk with a directory made, unless it is there. -/
def ensureDirectory (d : Disk) (p : Path) : Except DiskError Disk :=
  match d.makeDirectory p with
  | .ok d => .ok d
  | .error e => if e.fault ≠ .missing && d.hasDirectory p then .ok d else .error e

/-- The disk with a directory and at most `n` of those above it made, unless they are there. -/
def ensureDirectories (d : Disk) (p : Path) : Nat → Except DiskError Disk
  | 0 => d.ensureDirectory p
  | n + 1 =>
    match d.ensureDirectory p with
    | .ok d => .ok d
    | .error e =>
      if e.fault = .missing then do
        let d ← d.ensureDirectories p.parent n
        d.ensureDirectory p
      else .error e

/-- The disk with a directory and all above it made, unless they are there. -/
def makeDirectories (d : Disk) (p : Path) : Except DiskError Disk :=
  d.ensureDirectories p p.names.length

/-- The names of the files in a directory and below, seen from it. -/
def filesBelow (d : Disk) (directory : DiskPlace) : List (List Text) :=
  (d.files.filter fun file =>
    directory.isPrefixOf file.1 && directory.length < file.1.length).map fun file =>
      file.1.drop directory.length

/-- The directories of a disk that another one has not. -/
def newDirectories (d before : Disk) : List DiskPlace :=
  d.directories.filter fun p => !before.isDirectory p

/-- The files of a disk that another one has not, or with other bytes. -/
def newFiles (d before : Disk) : List (DiskPlace × List UInt8) :=
  d.files.filter fun file => before.files.lookup file.1 != some file.2

end Disk

end Phrasebook
