import Phrasebook.Accessor.Classify
import Phrasebook.Edit.Change
import Phrasebook.Site.Replacement

/-!
# Collecting changes

Every site becomes an edit of its span. Edits that lie inside of another one, as those of sites in
the expressions of a template, are rendered into it, so that the changes that remain do not overlap.

## Main definitions

* `renderSpan` — a span of the source with all edits in it.
* `Extractor.collect` — the changes of a text, and what their calls need.
-/

namespace Phrasebook

/-- The edit of a site. -/
structure PendingEdit where
  start : Nat
  stop : Nat
  replacement : Replacement
  deriving DecidableEq

namespace PendingEdit

/-- Whether an edit lies within a span. -/
def within (e : PendingEdit) (start stop : Nat) : Bool := start ≤ e.start && e.stop ≤ stop

/-- The key by which edits are put in order: of two that begin together, the longer one first. -/
def orderKey (e : PendingEdit) : List Int := [e.start, -e.stop]

end PendingEdit

/-- Leave out edits that lie in the last one that was kept. -/
def dropNested (last : Option PendingEdit) : List PendingEdit → List PendingEdit
  | [] => []
  | e :: rest =>
    if last.any fun kept => e.within kept.start kept.stop then dropNested last rest
    else e :: dropNested (some e) rest

/-- The edits that lie in no other, in order. -/
def outermost (edits : List PendingEdit) : List PendingEdit :=
  dropNested none (sortAscending PendingEdit.orderKey edits)

/-- The source from `cursor` to `stop` with edits made. -/
def renderEdits (t : Text) (build : Replacement → Text) (cursor stop : Nat) :
    List PendingEdit → Text
  | [] => t.slice cursor stop
  | e :: rest =>
    t.slice cursor e.start ++ build e.replacement ++ renderEdits t build e.stop stop rest

/-- A span of the source with all edits in it, down to a depth of nesting. -/
def renderSpan (o : Options) (t : Text) (edits : List PendingEdit) :
    Nat → TemplateSite.Renderer
  | 0, start, stop => t.slice start stop
  | depth + 1, start, stop =>
    renderEdits t (Replacement.build o (renderSpan o t edits depth)) start stop
      (outermost (edits.filter fun e => e.within start stop))

/-- The text that takes the place of an edit. Edits nest at most as deep as there are edits. -/
def PendingEdit.text (o : Options) (t : Text) (edits : List PendingEdit) (e : PendingEdit) : Text :=
  e.replacement.build o (renderSpan o t edits edits.length)

/-- Why calls in a span are not written, in the order of the calls, down to a depth of nesting. -/
def refusalsIn (o : Options) (edits : List PendingEdit) : Nat → Nat → Nat → List Text
  | 0, _, _ => []
  | depth + 1, start, stop =>
    (outermost (edits.filter fun e => e.within start stop)).flatMap fun e =>
      e.replacement.refusals o (refusalsIn o edits depth)

/-- Go on unless there is a reason not to. -/
def heed : List Text → Except Failure Unit
  | [] => .ok ()
  | reason :: _ => .error (.refused reason)

/-- What collecting gives. -/
structure Collected where
  changes : List Change := []
  /-- The imports that their calls need. -/
  imports : List ImportRequirement := []
  /-- The accessors that their calls need. -/
  acquisitions : List Acquisition := []

/-- Add an import unless it is there. -/
def addImport (imports : List ImportRequirement) (r : ImportRequirement) : List ImportRequirement :=
  if imports.contains r then imports else imports ++ [r]

/-- Add an accessor unless one is acquired in that function. -/
def addAcquisition (acquisitions : List Acquisition) (a : Acquisition) : List Acquisition :=
  if acquisitions.any fun b => b.ownerStart == a.ownerStart then acquisitions
  else acquisitions ++ [a]

/-- What is known while the calls of sites are chosen. -/
structure Survey where
  /-- The roles that are known. -/
  memo : Surveyor.Memo := []
  edits : List PendingEdit := []
  imports : List ImportRequirement := []
  acquisitions : List Acquisition := []
  /-- Why calls of the last site are not written. -/
  refusals : List Text := []

/-- Choose how a site calls its lookups, and add its edit. -/
def Survey.visit (surveyor : Surveyor) (s : Survey) (site : Site) : Survey :=
  let (role, memo) := surveyor.classify s.memo site.cursor
  let convention := surveyor.options.convention role.scope role.ownerStart
  let node := site.cursor.node
  { memo := memo
    edits := s.edits ++
      [⟨node.start, node.stop, site.replacement surveyor.options convention.callName⟩]
    imports := convention.imports.foldl addImport s.imports
    acquisitions := convention.acquisition.toList.foldl addAcquisition s.acquisitions
    refusals := site.refusals surveyor.options convention.callName }

namespace Extractor

/-- Go from node to node: give its phrases their keys, and choose how they are looked up. -/
def survey (e : Extractor) (surveyor : Surveyor) (s : Survey) : List Cursor → Bookkeeping Survey
  | [] => return s
  | c :: rest => do
    match ← e.resolve e.options.callNames c with
    | none => e.survey surveyor s rest
    | some site =>
      let s := s.visit surveyor site
      .ofExcept (heed s.refusals)
      e.survey surveyor s rest

/-- The changes of a survey, and what their calls need. -/
def conclude (e : Extractor) (s : Survey) : Except Failure Collected := do
  let edits := outermost s.edits
  heed (edits.flatMap fun p => p.replacement.refusals e.options
    (refusalsIn e.options s.edits s.edits.length))
  let change (p : PendingEdit) : Change :=
    .make e.text e.file p.start p.stop (p.text e.options e.text s.edits)
  return ⟨edits.map change, s.imports, s.acquisitions⟩

/-- The changes of a text, and what their calls need. -/
def collect (e : Extractor) (moduleScope : Scope) (root : Node) : Bookkeeping Collected := do
  let survey ← e.survey ⟨e.text, e.options, moduleScope⟩ {} root.cursors
  .ofExcept (e.conclude survey)

end Extractor

end Phrasebook
