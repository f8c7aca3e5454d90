import Phrasebook.Session.Run
import Phrasebook.Tree.Supplied

/-!
# The command line

The trees of the texts to be converted are read from the standard input. What a run can see of the
file system is taken as a disk, the run is carried out on it, and what has changed there is written
back.

## Main definitions

* `CommandLine.snapshot`, `CommandLine.writeBack` — from the file system to a disk, and back.
-/

namespace Phrasebook.CommandLine

/-- A place of a disk as the system spells it. -/
def systemPath (place : DiskPlace) : String := (Path.text ⟨"/", place⟩).display

/-- All bytes of a stream, after those that are read already. -/
partial def readAll (input : IO.FS.Stream) (before : ByteArray) : IO ByteArray := do
  let bytes ← input.read 65536
  if bytes.isEmpty then return before else readAll input (before ++ bytes)

/-- The trees on the standard input, if any. -/
def readTrees : IO (Option (List SuppliedTree)) := do
  let bytes ← readAll (← IO.getStdin) ByteArray.empty
  if bytes.isEmpty then return some []
  let value := (Utf8.decode bytes.toList).toOption.bind fun t => (Json.parse t).toOption
  return value.bind SuppliedTree.listOfJson?

/-- Add a file with its bytes to a disk, if it is there. -/
def addFile (d : Disk) (place : DiskPlace) : IO Disk := do
  let here ← IO.currentDir
  let path := here / systemPath place
  if (← path.pathExists) && !(← path.isDir) then
    return { d with files := put d.files place (← IO.FS.readBinFile path).toList }
  else return d

/-- Add the directories on the way to a place, as far as they are there. -/
def addDirectories (d : Disk) (place : DiskPlace) : IO Disk := do
  let here ← IO.currentDir
  let found ← (placesTo place).filterM fun p => (here / systemPath p).isDir
  return { d with directories := (d.directories ++ found).eraseDups }

/-- Add a file or directory, and the files below it that may be converted. -/
def addRoot (extensions : List Text) (d : Disk) (place : DiskPlace) : IO Disk := do
  let here ← IO.currentDir
  let top := here / systemPath place
  if !(← top.isDir) then return ← addFile d place
  let found ← top.walkDir fun p => return !(Path.ofText (p.fileName.getD "")).isIgnored
  let mut disk := d
  for file in found do
    let path := Path.ofText file.toString
    if path.hasSuffix extensions then
      disk ← addDirectories (← addFile disk path.names) path.names
  return disk

/-- The part of the file system that arguments name. -/
def snapshot (arguments : List Text) : IO Disk := do
  let current := Path.ofText (← IO.currentDir).toString
  let empty := Disk.ofFiles current.names []
  match Arguments.parse arguments with
  | .error _ => return empty
  | .ok a =>
    let placeOf := fun t => (Path.normalize current (Path.ofText t)).names
    let roots := a.roots.map placeOf
    let companions := a.companions.map placeOf
    let disk ← (roots ++ companions).foldlM addDirectories empty
    let disk ← companions.foldlM addFile disk
    roots.foldlM (addRoot (readExtensions a.extensions)) disk

/-- Write what has changed on a disk. -/
def writeBack (before after : Disk) : IO Unit := do
  for place in after.newDirectories before do
    IO.FS.createDirAll (systemPath place)
  for (place, bytes) in after.newFiles before do
    IO.FS.writeBinFile (systemPath place) ⟨bytes.toArray⟩

/-- Print a line on the standard error, and give an exit code. -/
def complain (message : Text) (code : UInt32) : IO UInt32 := do
  IO.eprintln message.display
  return code

/-- What the arguments can be. -/
def usage : Text := "usage: phrasebook " ++ Text.join " " (CommandOption.names.map Prod.fst)

/-- Tell how a run has ended, and give the exit code. -/
def conclude : Ending → IO UInt32
  | .exit code => return code.toUInt32
  | .told message => complain message 1
  | .stopped .misuse => complain usage 2
  | .stopped .help => do
    IO.println usage.display
    return 0
  | .failed f => complain f.message 1
  | .refused e => complain e.message 1

end Phrasebook.CommandLine

open Phrasebook CommandLine in
/-- The command line. -/
def main (arguments : List String) : IO UInt32 := do
  let arguments := arguments.map Text.ofString
  let disk ← snapshot arguments
  match ← readTrees with
  | none => complain "the trees on the standard input cannot be read" 1
  | some trees =>
    let (ending, desk) := runCommand (Parser.ofSupplied trees) arguments disk
    IO.print desk.printed.display
    writeBack disk desk.disk
    conclude ending
