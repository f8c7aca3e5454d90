import Phrasebook.Json.Writer

/-!
# Message keys

A message is looked up under a key, a text or a number. In a program the key stands as a literal;
inside a quoted attribute that literal must not hold the attribute's own quote.

## Main definitions

* `Key.literal`, `Key.attributeLiteral` — a key as a literal, in a program and in an attribute.
-/

namespace Phrasebook

/-- A message key. -/
inductive Key where
  | name (t : Text)
  | number (n : Int)
  deriving DecidableEq

/-- The marks that attribute values are quoted with. -/
inductive QuoteMark where
  | single
  | double
  deriving DecidableEq

/-- The character of a mark. -/
def QuoteMark.point : QuoteMark → CodePoint
  | single => '\''
  | double => '"'

namespace Key

/-- The spelling of a key. -/
def text : Key → Text
  | name t => t
  | number n => Text.ofInt n

/-- A key as a literal of the program. -/
def literal : Key → Text
  | name t => Json.quote t
  | number n => Text.ofInt n

/-- A text as a literal in single quotes that holds no double quote. -/
def singleQuoted (t : Text) : Text :=
  let inner := (Json.quote t).drop 1 |>.dropLast
  let inner := Text.replaceAll inner "\\\"" "\""
  let inner := Text.replaceAll inner "'" "\\'"
  "'" ++ Text.replaceAll inner "\"" "\\u0022" ++ "'"

/-- A key as a literal that can stand in an attribute value, or outside of any. -/
def attributeLiteral (k : Key) (mark : Option QuoteMark) : Text :=
  match k, mark with
  | number n, _ => Text.ofInt n
  | name t, none => Json.quote t
  | name t, some .double => singleQuoted t
  | name t, some .single => Text.replaceAll (Json.quote t) "'" "\\u0027"

end Key

end Phrasebook
