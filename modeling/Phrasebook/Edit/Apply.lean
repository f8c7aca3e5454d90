import Phrasebook.Edit.Change
import Phrasebook.Edit.LineComment
import Phrasebook.Message.Call

/-!
# Applying changes

Changes are applied from the last to the first, so that the spans that are still to come stay where
they are. Before that, every change with a span is checked: the span lies in the text, holds the
text to be replaced, and does not overlap another. A change without a span is found by what stands
around it.

## Main definitions

* `validate` — the check of the changes that have spans.
* `planSplices` — what putting a replacement into a span amounts to.
* `applyChanges` — the text with all changes made, and where offsets have moved.
-/

namespace Phrasebook

/-- The replacement of a span. -/
structure Splice where
  start : Nat
  stop : Nat
  text : Text
  deriving DecidableEq

namespace Splice

/-- A text with the span replaced. -/
def apply (s : Splice) (t : Text) : Text := t.splice s.start s.stop s.text

/-- Where an offset moves: what stands at or behind the end of the span moves with it. -/
def move (s : Splice) (anchor : Int) : Int :=
  if (s.stop : Int) ≤ anchor then anchor + ((s.text.length : Int) - ((s.stop : Int) - s.start))
  else anchor

/-- The key by which replacements are put in order: where they begin, where they end, and their text. -/
def orderKey (s : Splice) : List Int := s.start :: s.stop :: s.text.map fun c => (c.toNat : Int)

end Splice

/-- The replacements that putting `replacement` into a span amounts to. A line comment at its end
goes where nothing follows it, and becomes a block comment if there is no such place. The one
further back comes first. -/
def planSplices (t : Text) (start stop : Nat) (replacement : Text) : List Splice :=
  match splitLineComment replacement with
  | none => [⟨start, stop, replacement⟩]
  | some (code, comment) =>
    match commentPlacement t stop with
    | none =>
      [⟨start, stop, code ++ " /* " ++ withoutCommentEnd (Text.trim (comment.drop 2)) ++ " */"⟩]
    | some (position, needsLineEnd) =>
      if position = stop then [⟨start, stop, code ++ " " ++ comment⟩]
      else
        [⟨position, position, " " ++ comment ++ if needsLineEnd then t.newline else []⟩,
          ⟨start, stop, code⟩]

/-- The problem of a cause at the place of a change. -/
def Change.problem (c : Change) (cause : Cause) : Problem :=
  .placed cause (some c.file) c.first.line c.first.column

/-- The span of a change by what stands around it: the first such place in the text. -/
def locate (t : Text) (c : Change) : Except Problem (Nat × Nat) :=
  match c.surroundings with
  | none => .error (c.problem .unanchored)
  | some s =>
    match Text.find? s.fullMatch t with
    | none => .error (c.problem (.contextNotFound s.fullMatch))
    | some place =>
      match (Text.findFrom? c.replaced s.fullMatch s.before.length).or
        (Text.find? c.replaced s.fullMatch) with
      | none => .error (c.problem .replacedNotFound)
      | some inner => .ok (place + inner, place + inner + c.replaced.length)

/-- Check a change with a span, given the span of the change before it. -/
def validateSpan (t : Text) (previous : Option (Int × Int)) (c : Change) (start stop : Int) :
    Except Problem Unit :=
  if start < 0 || stop > t.length || start > stop then
    .error (c.problem (.spanOutOfRange start stop))
  else if t.slice start.toNat stop.toNat != c.replaced then
    .error (c.problem (.spanMismatch c.replaced))
  else
    match previous with
    | some (start', stop') =>
      if stop' > start then .error (c.problem (.overlap start' stop')) else .ok ()
    | none => .ok ()

/-- Check changes with spans in the order of their spans. -/
def validateFrom (t : Text) (previous : Option (Int × Int)) :
    List (Change × Int × Int) → Except Problem Unit
  | [] => .ok ()
  | (c, start, stop) :: rest => do
    validateSpan t previous c start stop
    validateFrom t (some (start, stop)) rest

/-- The changes that have spans. -/
def anchored (changes : List Change) : List (Change × Int × Int) :=
  changes.filterMap fun c => c.span?.map fun span => (c, span)

/-- Check the changes that have spans. -/
def validate (t : Text) (changes : List Change) : Except Problem Unit :=
  validateFrom t none (sortAscending (fun c => [c.2.1, c.2.2]) (anchored changes))

/-- The key by which changes are put in order: where they begin, as far as is known. -/
def Change.orderKey (table : List Nat) (c : Change) : Except Failure (List Int) :=
  match c.start with
  | some start => .ok [start, c.first.line, c.first.column]
  | none =>
    match Text.offsetOf? table c.first.line c.first.column with
    | some start => .ok [start, c.first.line, c.first.column]
    | none => .error .badIndex

/-- Apply one change to a text, and move offsets with it. -/
def applyChange (state : Text × List Int) (c : Change) : Except Failure (Text × List Int) := do
  let (start, stop) ←
    match c.span? with
    | some (start, stop) => .ok (start.toNat, stop.toNat)
    | none => (locate state.1 c).mapError .problem
  return (planSplices state.1 start stop c.replacement).foldl
    (fun (t, anchors) s => (s.apply t, anchors.map s.move)) state

/-- Apply changes to a text, and tell where offsets have moved. -/
def applyChanges (t : Text) (changes : List Change) (anchors : List Int) :
    Except Failure (Text × List Int) := do
  if changes.isEmpty then return (t, anchors)
  (validate t changes).mapError Failure.problem
  let table := t.lineTable
  let keyed ← changes.mapM fun c => return (c, ← c.orderKey table)
  (sortDescending Prod.snd keyed).foldlM (fun state c => applyChange state c.1) (t, anchors)

end Phrasebook
