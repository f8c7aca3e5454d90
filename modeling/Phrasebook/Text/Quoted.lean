import Phrasebook.Text.Basic
import Phrasebook.Text.Printable

/-!
# Quoted texts

How a text is shown inside a message: between quotes, with what cannot be printed spelled out.

## Main definitions

* `Text.quoted` — a text between quotes, with what cannot be printed spelled out.
-/

namespace Phrasebook

/-- The numeric escape of a code point, with as many digits as its size asks for. -/
def CodePoint.spelledOut (c : CodePoint) : Text :=
  if c.toNat < 0x100 then "\\x" ++ Text.hex 2 c.toNat
  else if c.toNat < 0x10000 then "\\u" ++ Text.hex 4 c.toNat
  else "\\U" ++ Text.hex 8 c.toNat

namespace Text

/-- Double quotes for a text with single quotes and no double ones, else single quotes. -/
def quoteFor (t : Text) : CodePoint :=
  if t.contains '\'' && !t.contains '"' then '"' else '\''

/-- One code point as it stands between the quotes `quote`. -/
def quotedPoint (quote c : CodePoint) : Text :=
  if c == quote || c == '\\' then ['\\', c]
  else if c == '\n' then "\\n"
  else if c == '\r' then "\\r"
  else if c == '\t' then "\\t"
  else if c.isPrintable then [c]
  else c.spelledOut

/-- A text between quotes, with what cannot be printed spelled out. -/
def quoted (t : Text) : Text :=
  let quote := t.quoteFor
  quote :: t.flatMap (quotedPoint quote) ++ [quote]

end Text

end Phrasebook
