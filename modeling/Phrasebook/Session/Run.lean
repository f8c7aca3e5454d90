import Phrasebook.Conversion.File
import Phrasebook.Options.Settings
import Phrasebook.Session.Arguments
import Phrasebook.Session.Report
import Phrasebook.Session.Sources

/-!
# Runs of the command line

A run reads its arguments and settings, converts the source files of a disk, and writes what it was
asked for. What it has printed and written before a failure stays.

## Main definitions

* `Session` — the steps of a run.
* `Arguments.conclude` — what is told and written once all files are finished.
* `runCommand` — a run of the command line on a disk.
-/

namespace Phrasebook

/-- Write a converted file if it has changed: the outcome, and the disk then. A text that cannot be
encoded leaves an empty file. -/
def writeConverted (d : Disk) (p : Path) (dryRun : Bool) (code : Text) (outcome : Outcome) :
    Except Failure FileOutcome × Disk :=
  match outcome.problem with
  | some problem =>
    let reason := problem.cause.kind.code ++ " (" ++ problem.cause.message ++ ")"
    (.ok ⟨p, false, "skip: " ++ reason, some outcome⟩, d)
  | none =>
    if !outcome.changed || outcome.code == code then (.ok ⟨p, false, noChange, some outcome⟩, d)
    else
      let count := Text.ofNat outcome.changes.length
      let done : FileOutcome := ⟨p, true, "updated (" ++ count ++ " change(s))", some outcome⟩
      if dryRun then (.ok done, d)
      else
        match outcome.code.encode with
        | .error e => (.error (.unencodable e), (d.write p []).toOption.getD d)
        | .ok bytes =>
          match d.write p bytes with
          | .ok d => (.ok done, d)
          | .error e =>
            (.ok ⟨p, false, "skip: write error (" ++ e.message ++ ")", some outcome⟩, d)

/-- Convert one file of a disk: the outcome, and the disk then. -/
def convertPath (parser : Parser) (options : Options) (catalogue : Catalogue) (dryRun : Bool)
    (d : Disk) (p : Path) : Except Failure FileOutcome × Disk :=
  match d.read p with
  | .error e => (.ok ⟨p, false, "skip: read error (" ++ e.message ++ ")", none⟩, d)
  | .ok bytes =>
    match Utf8.decode bytes with
    | .error _ => (.ok ⟨p, false, "skip: non-utf8", none⟩, d)
    | .ok code =>
      match convertFile parser code p.text options catalogue none [] with
      | .error failure => (.error failure, d)
      | .ok (outcome, _) => writeConverted d p dryRun code outcome

/-- Convert files of a disk one after the other. All of them are converted, even if one fails. -/
def convertPaths (parser : Parser) (options : Options) (catalogue : Catalogue) (dryRun : Bool)
    (d : Disk) : List Path → Except Failure (List FileOutcome) × Disk
  | [] => (.ok [], d)
  | p :: rest =>
    let (here, d) := convertPath parser options catalogue dryRun d p
    let (others, d) := convertPaths parser options catalogue dryRun d rest
    (do let first ← here
        let others ← others
        return first :: others, d)

/-- How a run ends. -/
inductive Ending where
  | exit (code : Nat)
  /-- With a message about what the caller has got wrong. -/
  | told (message : Text)
  | stopped (stop : ArgumentStop)
  | failed (f : Failure)
  | refused (e : DiskError)

/-- What a run works on: the disk, and what has been printed. -/
structure Desk where
  disk : Disk
  printed : Text := []

/-- The steps of a run. -/
abbrev Session (α : Type) := ExceptT Ending (StateM Desk) α

namespace Session

/-- Print a line. -/
def say (line : Text) : Session Unit :=
  modify fun desk => { desk with printed := desk.printed ++ line ++ "\n" }

/-- Go on with what the disk gives, unless it refuses. -/
def orRefuse {α : Type} : Except DiskError α → Session α
  | .ok a => return a
  | .error e => throw (.refused e)

/-- Go on with a result, unless it is a failure. -/
def orFail {α : Type} : Except Failure α → Session α
  | .ok a => return a
  | .error f => throw (.failed f)

/-- The path of the working directory. -/
def currentPath : Session Path := return ⟨"/", (← get).disk.current⟩

/-- A path from the root on. -/
def resolve (t : Text) : Session Path := return Path.normalize (← currentPath) (Path.ofText t)

/-- The text in bytes, with line feeds for all line ends. -/
def decode (bytes : List UInt8) : Session Text :=
  match Utf8.decode bytes with
  | .ok t => return t.unifyLineEnds
  | .error e => throw (.failed (.undecodable e))

/-- Write a file. A text that cannot be encoded leaves an empty file. -/
def writeFile (p : Path) (t : Text) : Session Unit := do
  let written ← orRefuse ((← get).disk.write p (t.encode.toOption.getD []))
  modify fun desk => { desk with disk := written }
  match t.encode with
  | .ok _ => return
  | .error e => throw (.failed (.unencodable e))

/-- Write a file, and make the directories above it. -/
def writeBelow (p : Path) (t : Text) : Session Unit := do
  let made ← orRefuse ((← get).disk.makeDirectories p.parent)
  modify fun desk => { desk with disk := made }
  writeFile p t

/-- The JSON value in a file that is called `what`. -/
def loadJson (what : Text) (p : Path) : Session Json := do
  match (← get).disk.read p with
  | .error e =>
    if e.fault = .missing then throw (.told (what ++ " file not found: " ++ p.text))
    else throw (.refused e)
  | .ok bytes =>
    match Json.parse (← decode bytes) with
    | .ok value => return value
    | .error e =>
      throw (.told (what ++ " file is not valid JSON: " ++ p.text ++ " (" ++ e.message ++ ")"))

/-- The known messages in a file. -/
def loadCatalogue (p : Path) : Session Catalogue := do
  match ← loadJson "Translations" p with
  | .object members => return Catalogue.ofTable ((Json.object members).flatten [])
  | _ => throw (.told ("Translations file must be a JSON object: " ++ p.text))

/-- The options in a file. -/
def loadOptions (p : Path) : Session Options := do
  match Options.ofSettings (← loadJson "Config" p) with
  | .ok o => return o
  | .error problem => throw (.told ("Invalid config " ++ p.text ++ ": " ++ problem.cause.message))

/-- The messages in the file to which new ones are added; none if there is no such file. -/
def loadTable (p : Path) : Session (List (Text × Text)) := do
  let disk := (← get).disk
  if !disk.hasFile p then return []
  let raw := Text.trim (← decode (← orRefuse (disk.read p)))
  if raw.isEmpty then return []
  match ← orFail ((Json.parse raw).mapError Failure.badJson) with
  | .object members => return (Json.object members).flatten []
  | _ => throw (.told ("Output file must be a JSON object: " ++ p.text))

end Session

namespace Arguments

/-- Whether an argument says something about the accessor. -/
def setsAccessor (a : Arguments) : Bool :=
  a.accessor.isSome || a.hook.isSome || a.source.isSome || a.globalFunction.isSome || a.noImport

/-- An accessor with what the arguments say about it. -/
def applyAccessor (a : Arguments) (base : AccessorOptions) : AccessorOptions :=
  { base with
    name := a.accessor.getD base.name
    hook := a.hook.getD base.hook
    source := a.source.getD base.source
    globalFunction := a.globalFunction.or base.globalFunction
    noImport := a.noImport || base.noImport }

/-- Options with what the arguments say. -/
def applyTo (a : Arguments) (o : Options) : Options :=
  let framework := a.framework.getD o.framework
  let base := o.accessor?.getD ((Framework.ofName? framework).getD .react).accessor
  { o with
    pattern := a.pattern.getD o.pattern
    framework := framework
    appendComment := a.appendComment || o.appendComment
    commentType := a.commentType.getD o.commentType
    accessor? := if a.setsAccessor then some (a.applyAccessor base) else o.accessor? }

/-- The options of a run. -/
def options (a : Arguments) : Session Options := do
  let given ←
    match a.config with
    | some config => Session.loadOptions (Path.ofText config)
    | none => pure {}
  let o := a.applyTo given
  match o.normalize with
  | .ok _ => return o
  | .error (.problem p) => throw (.told ("Invalid options: " ++ p.cause.message))
  | .error f => throw (.failed f)

/-- The known messages of a run. -/
def catalogue (a : Arguments) : Session Catalogue :=
  match a.existing with
  | some existing => Session.loadCatalogue (Path.ofText existing)
  | none => return []

/-- Convert files, and keep what is written. -/
def convertAll (a : Arguments) (parser : Parser) (o : Options) (catalogue : Catalogue)
    (files : List Path) : Session (List FileOutcome) := do
  let (result, disk) := convertPaths parser o catalogue a.dryRun (← get).disk files
  modify fun desk => { desk with disk := disk }
  Session.orFail result

/-- Add the new messages to the file that was asked for. -/
def writeMessages (a : Arguments) (outcomes : List FileOutcome) : Session Unit :=
  match a.output with
  | none => return
  | some output => do
    let p ← Session.resolve output
    let (merged, added) := mergeExtracted outcomes (← Session.loadTable p)
    let table : Json := .object (merged.map fun (key, value) => (key, .text value))
    if !a.dryRun then Session.writeBelow p (table.render ++ "\n")
    Session.say ("Extracted strings: " ++ Text.ofNat added ++ " new; " ++ Text.ofNat merged.length
      ++ " total (" ++ p.text ++ ")")

/-- Write the list of changed files, if it was asked for. -/
def writeUpdated (a : Arguments) (outcomes : List FileOutcome) : Session Unit := do
  if a.writeList.isEmpty then return
  let p := Path.ofText a.writeList
  Session.writeBelow p ((updatedFiles outcomes).flatMap fun file => file.text ++ "\n")
  Session.say ("Wrote updated file list: " ++ p.text)

/-- Write the report, if it was asked for. -/
def writeReport (a : Arguments) (scanned : Nat) (outcomes : List FileOutcome) : Session Unit :=
  match a.reportJson with
  | none => return
  | some report => do
    let p ← Session.resolve report
    Session.writeBelow p ((reportOf scanned outcomes).render ++ "\n")
    Session.say ("Report: " ++ p.text)

/-- The exit code of a run. -/
def exitCode (a : Arguments) (outcomes : List FileOutcome) : Nat :=
  if a.failOnChange && !(updatedFiles outcomes).isEmpty then 1 else 0

/-- Tell about the files once all of them are finished, in whatever order, write what was asked for,
and give the exit code. -/
def conclude (a : Arguments) (scanned : Nat) (finished : List FileOutcome) : Session Nat := do
  let outcomes := sortOutcomes finished
  for line in outcomes.filterMap (FileOutcome.line? a.dryRun) do
    Session.say line
  Session.say (summaryLine a.dryRun scanned outcomes)
  a.writeMessages outcomes
  a.writeUpdated outcomes
  a.writeReport scanned outcomes
  return a.exitCode outcomes

/-- Carry out arguments, and give the exit code. -/
def run (a : Arguments) (parser : Parser) : Session Nat := do
  if a.concurrency ≤ 0 then throw (.told "--concurrency must be > 0")
  let o ← a.options
  let catalogue ← a.catalogue
  let roots ← a.roots.mapM Session.resolve
  let files := sourceFiles (← get).disk roots (readExtensions a.extensions)
  let finished ← a.convertAll parser o catalogue files
  a.conclude files.length finished

end Arguments

/-- A run of the command line on a disk: how it ends, and what it has printed and written. -/
def runCommand (parser : Parser) (arguments : List Text) (d : Disk) : Ending × Desk :=
  match Arguments.parse arguments with
  | .error stop => (.stopped stop, { disk := d })
  | .ok a =>
    match (a.run parser).run.run { disk := d } with
    | (.ok code, desk) => (.exit code, desk)
    | (.error ending, desk) => (ending, desk)

end Phrasebook
