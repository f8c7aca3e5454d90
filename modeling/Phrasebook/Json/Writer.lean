import Phrasebook.Json.Basic

/-!
# Writing JSON

Texts are written with the fewest escapes: quotes, backslashes and controls. Values are laid out
with one item on a line, two blanks for every level.

## Main definitions

* `Json.quote`, `Json.render` — a text as a JSON string, and a value over several lines.
-/

namespace Phrasebook.Json

/-- One code point inside a JSON string. -/
def escapePoint (c : CodePoint) : Text :=
  if c == '"' then "\\\""
  else if c == '\\' then "\\\\"
  else if c == '\n' then "\\n"
  else if c == '\r' then "\\r"
  else if c == '\t' then "\\t"
  else if c.toNat = 8 then "\\b"
  else if c.toNat = 12 then "\\f"
  else if c.toNat < 0x20 then "\\u" ++ Text.hex 4 c.toNat
  else [c]

/-- A text as a JSON string. -/
def quote (t : Text) : Text := "\"" ++ t.flatMap escapePoint ++ "\""

/-- A line end and the blanks of a level. -/
def indentation (level : Nat) : Text := '\n' :: List.replicate (2 * level) ' '

mutual

/-- A value that stands at a level, over several lines. -/
def renderAt (level : Nat) : Json → Text
  | .null => "null"
  | .bool true => "true"
  | .bool false => "false"
  | .integer n => Text.ofInt n
  | .real spelling => spelling
  | .text t => quote t
  | .array [] => "[]"
  | .array (item :: items) =>
    "[" ++ indentation (level + 1) ++ renderAt (level + 1) item ++ renderItems (level + 1) items
      ++ indentation level ++ "]"
  | .object [] => "\x7b\x7d"
  | .object ((name, value) :: members) =>
    "\x7b" ++ indentation (level + 1) ++ quote name ++ ": " ++ renderAt (level + 1) value
      ++ renderMembers (level + 1) members ++ indentation level ++ "\x7d"

/-- The further items of a list. -/
def renderItems (level : Nat) : List Json → Text
  | [] => []
  | item :: items => "," ++ indentation level ++ renderAt level item ++ renderItems level items

/-- The further members of an object. -/
def renderMembers (level : Nat) : List (Text × Json) → Text
  | [] => []
  | (name, value) :: members =>
    "," ++ indentation level ++ quote name ++ ": " ++ renderAt level value
      ++ renderMembers level members

end

/-- A value over several lines, two blanks for every level. -/
def render (value : Json) : Text := renderAt 0 value

end Phrasebook.Json
