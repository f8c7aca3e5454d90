import Phrasebook.Conversion.Outcome

/-!
# Reports

What a run tells about its files: a line for every file that was changed or passed over for a
reason, a summary, the table of new messages, and a report. Files come in the order of their paths,
however they were finished.

## Main definitions

* `mergeExtracted` — a table of messages with the new ones added.
* `reportOf` — the report of a run.
-/

namespace Phrasebook

/-- The outcome of one file. -/
structure FileOutcome where
  path : Path
  changed : Bool
  /-- What there is to tell. -/
  message : Text
  /-- The outcome of its conversion, if it could be read. -/
  outcome : Option Outcome := none

/-- Outcomes in the order of their paths. -/
def sortOutcomes (outcomes : List FileOutcome) : List FileOutcome :=
  sortStable (fun a b => Text.ble a.path.text b.path.text) outcomes

/-- The records of new keys in files that were converted without a problem. -/
def newRecords (outcomes : List FileOutcome) : List Record :=
  outcomes.flatMap fun o =>
    match o.outcome with
    | some r => if r.problem.isNone then r.extracted else []
    | none => []

/-- Add a message to a table unless its key is there, and count it. -/
def addMessage (merge : List (Text × Text) × Nat) (r : Record) : List (Text × Text) × Nat :=
  if (merge.1.lookup r.key.text).isSome then merge
  else (merge.1 ++ [(r.key.text, r.value)], merge.2 + 1)

/-- A table of messages with the new ones added, and how many they are. -/
def mergeExtracted (outcomes : List FileOutcome) (table : List (Text × Text)) :
    List (Text × Text) × Nat :=
  (newRecords outcomes).foldl addMessage (table, 0)

/-- The message of a file in which there is nothing to change. -/
def noChange : Text := "skip: no change"

/-- How a changed file is called. -/
def updatedWord (dryRun : Bool) : Text := if dryRun then "would update" else "updated"

/-- The line about a file, if there is one. -/
def FileOutcome.line? (dryRun : Bool) (o : FileOutcome) : Option Text :=
  if o.changed then some ("[" ++ updatedWord dryRun ++ "] " ++ o.path.text)
  else if o.message == noChange then none
  else some ("[" ++ o.message ++ "] " ++ o.path.text)

/-- The files that were changed. -/
def updatedFiles (outcomes : List FileOutcome) : List Path :=
  (outcomes.filter FileOutcome.changed).map FileOutcome.path

/-- The summary of a run. -/
def summaryLine (dryRun : Bool) (scanned : Nat) (outcomes : List FileOutcome) : Text :=
  let updated := (updatedFiles outcomes).length
  "Scanned " ++ Text.ofNat scanned ++ " file(s); " ++ updatedWord dryRun ++ " "
    ++ Text.ofNat updated ++ " file(s); skipped " ++ Text.ofNat (outcomes.length - updated)
    ++ " file(s)."

/-- A key as it stands in a report. -/
def Key.toJson : Key → Json
  | .name t => .text t
  | .number n => .integer n

/-- A record of a known key as it stands in a report. -/
def Record.toJson (r : Record) : Json :=
  .object [("key", r.key.toJson), ("value", .text r.value),
    ("line", .integer r.location.position.line)]

/-- What a report tells about a file. -/
def FileOutcome.toJson (o : FileOutcome) : Json :=
  let used := (o.outcome.map Outcome.used).getD []
  let changes := ((o.outcome.map Outcome.changes).getD []).length
  let warnings := (o.outcome.map Outcome.warnings).getD []
  let problem : Json :=
    match o.outcome.bind Outcome.problem with
    | some p => .object p.toJson
    | none => .null
  .object [("file", .text o.path.text), ("changed", .bool o.changed), ("message", .text o.message),
    ("changes", .integer changes), ("used_existing_keys", .array (used.map Record.toJson)),
    ("error", problem), ("warnings", .array (warnings.map fun w => .text w.text))]

/-- The report of a run. -/
def reportOf (scanned : Nat) (outcomes : List FileOutcome) : Json :=
  .object [("scanned", .integer scanned), ("updated", .integer (updatedFiles outcomes).length),
    ("files", .array (outcomes.map FileOutcome.toJson))]

end Phrasebook
