import Phrasebook.Text.Ranges

/-!
# Digits

The decimal digits of every script, and the characters that are digits in a wider sense
(superscripts, circled digits and the like), as Unicode 14 lists them.

## Main definitions

* `CodePoint.isDecimal`, `CodePoint.isDigit` — the digits in the strict and in the wider sense.
-/

namespace Phrasebook

/-- The decimal digits. Every range consists of runs of ten, from zero to nine. -/
def decimalRanges : List (Nat × Nat) := rangesOfRuns 0
  [48,10,1574,10,134,10,198,10,412,10,118,10,118,10,118,10,118,10,118,10,118,10,118,10,118,10,118,10,96,10,
    118,10,70,10,278,10,70,10,1862,10,38,10,300,10,128,10,166,10,6,10,182,10,86,10,134,10,6,10,35270,10,
    678,10,38,10,198,10,22,10,86,10,406,10,21270,10,1414,10,2182,10,812,10,128,10,60,10,144,10,278,10,342,
    10,118,10,374,10,102,10,102,10,422,10,102,10,758,10,246,10,70,10,19638,10,86,10,134,10,27764,50,2368,
    10,422,10,1622,10,4758,10]

/-- The digits that are not decimal ones. -/
def otherDigitRanges : List (Nat × Nat) := rangesOfRuns 0
  [178,2,5,1,4783,9,1640,1,1685,1,3,6,6,10,982,9,11,9,11,9,89,1,10,9,1,1,630,9,1,9,1,9,58029,4,1052,9,489,
    9,57509,11]

namespace CodePoint

/-- The value of a decimal digit. -/
def decimalValue? (c : CodePoint) : Option Nat :=
  (decimalRanges.find? fun r => r.1 ≤ c.toNat && c.toNat ≤ r.2).map fun r => (c.toNat - r.1) % 10

/-- Whether a code point is a decimal digit. -/
def isDecimal (c : CodePoint) : Bool := inRanges decimalRanges c.toNat

/-- Whether a code point is a digit. -/
def isDigit (c : CodePoint) : Bool := c.isDecimal || inRanges otherDigitRanges c.toNat

end CodePoint

end Phrasebook
