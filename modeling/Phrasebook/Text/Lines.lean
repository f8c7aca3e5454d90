import Phrasebook.Text.Basic

/-!
# Lines

Lines end at a line feed, and at nothing else. They are counted from one, and columns from zero.
A line table turns offsets into positions and back.

## Main definitions

* `Text.position` — the position of an offset.
* `Text.lineTable`, `Text.offsetOf?` — the offset of a position, by a line table.
-/

namespace Phrasebook

/-- A place in a text: a line, counted from one, and a column, counted from zero. -/
structure Position where
  /-- The line, counted from one. -/
  line : Int
  /-- The column, counted from zero. -/
  column : Int
  deriving DecidableEq

/-- The entry of a list at an index; a negative index counts from the end. -/
def itemAt? {α : Type} (l : List α) (index : Int) : Option α :=
  if 0 ≤ index then l[index.toNat]?
  else if 0 ≤ index + l.length then l[(index + l.length).toNat]?
  else none

namespace Text

/-- The offsets that follow a line feed, for a text that begins at `position`. -/
def offsetsAfterLineFeeds (position : Nat) : Text → List Nat
  | [] => []
  | c :: rest =>
    if c == '\n' then (position + 1) :: offsetsAfterLineFeeds (position + 1) rest
    else offsetsAfterLineFeeds (position + 1) rest

/-- The offsets at which the lines of a text begin. -/
def lineStarts (t : Text) : List Nat := 0 :: offsetsAfterLineFeeds 0 t

/-- The position of an offset: its line is the number of lines that begin at or before it. No
line does so for a negative offset, whose column is measured from the last line. -/
def position (t : Text) (offset : Int) : Position :=
  let starts := t.lineStarts
  let before := starts.filter fun (start : Nat) => (start : Int) ≤ offset
  ⟨before.length, offset - ((before.getLast?.getD (starts.getLast?.getD 0) : Nat) : Int)⟩

/-- The offsets at which lines begin, and the end of the text if no line begins there. -/
def lineTable (t : Text) : List Nat :=
  let starts := t.lineStarts
  if starts.getLast? = some t.length then starts else starts ++ [t.length]

/-- The offset of a line and a column by a line table. A line beyond the table counts as its
last, and one that is not positive is counted from the end. -/
def offsetOf? (table : List Nat) (line column : Int) : Option Int :=
  (itemAt? table (min line table.length - 1)).map fun start => (start : Int) + column

/-- Where the line of an offset begins: after the last line feed before it. -/
def lineStart (t : Text) (offset : Nat) : Nat :=
  ((offsetsAfterLineFeeds 0 (t.take offset)).getLast?).getD 0

/-- The blanks and tabs at the beginning of the line of an offset. -/
def lineIndent (t : Text) (offset : Nat) : Text :=
  (t.drop (t.lineStart offset)).takeWhile fun (c : CodePoint) => c == ' ' || c == '\t'

/-- The line end that a text uses: carriage return and line feed if it has that pair anywhere. -/
def newline (t : Text) : Text := if t.has "\r\n" then "\r\n" else "\n"

/-- A text with every carriage return, alone or before a line feed, turned into a line feed. -/
def unifyLineEnds : Text → Text
  | [] => []
  | .scalar '\r' :: .scalar '\n' :: rest => '\n' :: unifyLineEnds rest
  | .scalar '\r' :: rest => '\n' :: unifyLineEnds rest
  | c :: rest => c :: unifyLineEnds rest

end Text

end Phrasebook
