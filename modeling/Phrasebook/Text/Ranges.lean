import Phrasebook.Text.CodePoint

/-!
# Ranges of code points

A property of characters is given as a list of ranges, both ends included. A long list is written as
runs: how many characters are passed over, how many have the property, and so on by turns.

## Main definitions

* `inRanges` — the property that a list of ranges gives.
* `rangesOfRuns` — the ranges that runs stand for.
-/

namespace Phrasebook

/-- Whether a number lies in one of the ranges, both ends included. -/
def inRanges (ranges : List (Nat × Nat)) (n : Nat) : Bool :=
  ranges.any fun r => r.1 ≤ n && n ≤ r.2

/-- The ranges that runs stand for which begin at a number: so many characters are passed over, then so
many are in a range, by turns. -/
def rangesOfRuns (start : Nat) : List Nat → List (Nat × Nat)
  | gap :: length :: rest =>
    (start + gap, start + gap + length - 1) :: rangesOfRuns (start + gap + length) rest
  | _ => []

end Phrasebook
