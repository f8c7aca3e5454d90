import Phrasebook.Text.Lines

/-!
# Changes

A change replaces a span of a text. Beside its span it knows the text that it replaces and some of
what stands around it, so that its place can be checked, or found again.

## Main definitions

* `Change`, `Change.make` — a change, and how one is made from a span.
-/

namespace Phrasebook

/-- What stands around a replaced text. -/
structure Surroundings where
  before : Text
  after : Text
  /-- All of it, with the replaced text. -/
  fullMatch : Text
  deriving DecidableEq

/-- The replacement of a span of a text: the positions of the span, and its offsets if they are known. -/
structure Change where
  file : Text
  replaced : Text
  replacement : Text
  first : Position
  last : Position
  start : Option Int := none
  stop : Option Int := none
  surroundings : Option Surroundings := none
  deriving DecidableEq

namespace Change

/-- How many characters on either side of a change are remembered. -/
def contextLength : Nat := 20

/-- The change that replaces a span of a text. -/
def make (t file : Text) (start stop : Nat) (replacement : Text) : Change :=
  let before := t.slice (start - contextLength) start
  let after := t.slice stop (stop + contextLength)
  let replaced := t.slice start stop
  { file := file, replaced := replaced, replacement := replacement, first := t.position start
    last := t.position stop, start := some start, stop := some stop
    surroundings := some ⟨before, after, before ++ replaced ++ after⟩ }

/-- The span of a change, if it is given. -/
def span? (c : Change) : Option (Int × Int) :=
  match c.start, c.stop with
  | some start, some stop => some (start, stop)
  | _, _ => none

end Change

end Phrasebook
