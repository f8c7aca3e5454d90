import Phrasebook.Problem
import Phrasebook.Sorting

/-!
# Insertions

Texts that are put between the characters of a text. At one place, the one with the lower order
comes first.

## Main definitions

* `applyInsertions` — a text with insertions put in, from the last place to the first.
-/

namespace Phrasebook

/-- A text that is inserted at a place. -/
structure Insertion where
  position : Int
  text : Text
  /-- What comes first at one place: the lower order. -/
  order : Int := 0
  deriving DecidableEq

/-- Put one insertion into a text. -/
def Insertion.apply (t : Text) (i : Insertion) : Except Problem Text :=
  if 0 ≤ i.position && i.position ≤ t.length then
    .ok (t.splice i.position.toNat i.position.toNat i.text)
  else .error { cause := .insertionOutOfRange i.position }

/-- Put insertions into a text, from the last place to the first. -/
def applyInsertions (t : Text) (insertions : List Insertion) : Except Problem Text :=
  (sortDescending (fun i : Insertion => [i.position, i.order]) insertions).foldlM Insertion.apply t

end Phrasebook
