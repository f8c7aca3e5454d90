import Phrasebook.Text.Basic
import Phrasebook.Text.Ranges

/-!
# White space

The characters that count as white space: the controls of ASCII for tabs, line ends and
separators, the space, and the separators of Unicode.

## Main definitions

* `CodePoint.isBlank` — whether a code point is white space.
* `Text.trim` — a text without white space at its ends.
-/

namespace Phrasebook

/-- The white space characters. -/
def blankRanges : List (Nat × Nat) :=
  [(0x9, 0xD), (0x1C, 0x20), (0x85, 0x85), (0xA0, 0xA0), (0x1680, 0x1680), (0x2000, 0x200A),
    (0x2028, 0x2029), (0x202F, 0x202F), (0x205F, 0x205F), (0x3000, 0x3000)]

/-- Whether a code point is white space. -/
def CodePoint.isBlank (c : CodePoint) : Bool := inRanges blankRanges c.toNat

namespace Text

/-- A text without white space at its right end. -/
def trimRight (t : Text) : Text := trimRightWhile CodePoint.isBlank t

/-- A text without white space at its ends. -/
def trim (t : Text) : Text := trimWhile CodePoint.isBlank t

/-- The items of a list that is written with commas, semicolons or white space between them. -/
def listItems (t : Text) : List Text :=
  (t.splitWhere fun c => c.isBlank || c == ',' || c == ';').filter fun item => !item.isEmpty

end Text

end Phrasebook
