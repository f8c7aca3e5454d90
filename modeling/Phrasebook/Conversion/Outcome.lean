import Phrasebook.Edit.Change
import Phrasebook.Options.Normalize
import Phrasebook.Sorting
import Phrasebook.Tree.Parse

/-!
# Outcomes

What the conversion of a file gives. A conversion either succeeds as a whole, or it leaves the text
and the books as they were and tells the problem.

## Main definitions

* `Outcome` — what the conversion of a file gives.
* `Bookkeeping.conclude` — the outcome of a conversion that starts with empty books.
-/

namespace Phrasebook

/-- What the conversion of a file gives. -/
structure Outcome where
  code : Text
  /-- The records of new keys. -/
  extracted : List Record := []
  /-- The records of known keys. -/
  used : List Record := []
  /-- The changes, in order. -/
  changes : List Change := []
  problem : Option Problem := none
  warnings : List Warning := []

/-- Whether a conversion has changed the text. -/
def Outcome.changed (o : Outcome) : Bool := !o.changes.isEmpty

/-- What a conversion needs beside the text. -/
structure Workbench where
  parser : Parser
  file : Text
  options : Options
  /-- The known messages. -/
  catalogue : Catalogue

/-- Changes in the order of their spans. -/
def sortChanges (changes : List Change) : List Change :=
  sortAscending (fun c => [c.start.getD 0]) changes

/-- The outcome of a failed conversion. -/
def Outcome.failed (code file : Text) (warnings : List Warning) (failure : Failure) : Outcome :=
  { code := code, problem := some (failure.toProblem file), warnings := warnings }

/-- The outcome of a conversion, which starts with empty books, and the calls of the key generator
until then. Without a converted text nothing has changed. -/
def Bookkeeping.conclude (code file : Text) (warnings : List Warning) (earlier : List KeyRequest)
    (work : Bookkeeping (Option (Text × List Change))) : Outcome × List KeyRequest :=
  let (result, books) := work.run.run { requests := earlier }
  let outcome : Outcome :=
    match result with
    | .error failure => .failed code file warnings failure
    | .ok none => { code := code, warnings := warnings }
    | .ok (some (output, changes)) =>
      { code := output, extracted := books.extracted, used := books.used
        changes := sortChanges changes, warnings := warnings }
  (outcome, books.requests)

end Phrasebook
