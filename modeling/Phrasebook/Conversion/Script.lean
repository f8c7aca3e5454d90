import Phrasebook.Conversion.Outcome
import Phrasebook.Edit.Apply
import Phrasebook.Import.Plan
import Phrasebook.Site.Collect

/-!
# Conversion of scripts

A script is parsed, its changes are collected and made, and what their calls need is brought into
scope. The functions that own accessors are followed through the changes.

## Main definitions

* `Workbench.convertScript` — the converted script, and its changes.
-/

namespace Phrasebook

/-- Where a script stands, and what is needed there in any case. -/
structure ScriptPlace where
  /-- The role of code outside of functions. -/
  moduleScope : Scope := .plain
  /-- Imports that are needed in any case. -/
  imports : List ImportRequirement := []
  /-- Accessors that are needed in any case. -/
  acquisitions : List Acquisition := []

/-- Where the functions begin that own accessors. -/
def ownerStarts (acquisitions : List Acquisition) : List Int :=
  acquisitions.filterMap Acquisition.ownerStart

/-- An accessor whose owner has moved. -/
def Acquisition.moved (moves : List (Int × Int)) (a : Acquisition) : Acquisition :=
  { a with ownerStart := a.ownerStart.map fun start => (moves.lookup start).getD start }

/-- What collecting gives, with what is needed in any case. -/
def Collected.with (c : Collected) (place : ScriptPlace) : Collected :=
  { c with
    imports := place.imports.foldl addImport c.imports
    acquisitions := place.acquisitions.foldl addAcquisition c.acquisitions }

/-- Whether there is nothing to be done. -/
def Collected.isEmpty (c : Collected) : Bool :=
  c.changes.isEmpty && c.imports.isEmpty && c.acquisitions.isEmpty

namespace Workbench

/-- What finds the sites of a text. -/
def extractor (w : Workbench) (code : Text) : Except Failure Extractor := do
  let delimiter ← w.options.delimiter.mapError Failure.badPattern
  return ⟨code, w.file, w.options, delimiter, w.catalogue⟩

/-- A script with its changes made and all that is needed in scope. -/
def finishScript (w : Workbench) (code dialect : Text) (c : Collected) : Except Failure Text := do
  let owners := ownerStarts c.acquisitions
  let (patched, moved) ← applyChanges code c.changes owners
  let acquisitions := c.acquisitions.map (Acquisition.moved (owners.zip moved))
  ensureImports w.parser patched c.imports acquisitions dialect w.file

/-- The converted script, and its changes. -/
def convertScript (w : Workbench) (code dialect : Text) (place : ScriptPlace) :
    Bookkeeping (Text × List Change) := do
  let root ← .ofExcept (parse w.parser code dialect w.file)
  let extractor ← .ofExcept (w.extractor code)
  let collected := (← extractor.collect place.moduleScope root).with place
  if collected.isEmpty then return (code, [])
  let output ← .ofExcept (w.finishScript code dialect collected)
  return (output, collected.changes)

end Workbench

end Phrasebook
