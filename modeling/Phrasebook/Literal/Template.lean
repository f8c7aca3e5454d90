import Phrasebook.Text.Basic

/-!
# Text inside template literals

Text that moves into a template literal must not end it, nor open a substitution. Text that comes
from a string literal keeps its escapes; text that knows no escapes has its backslashes doubled.

## Main definitions

* `escapeSpelled`, `escapePlain` — text with and without escapes, made safe in a template literal.
-/

namespace Phrasebook

/-- Whether a text goes on with an opening brace. -/
def opensBrace (t : Text) : Bool := t.head? == some '\x7b'

/-- One character of template text, given what follows it: backticks and what would open a
substitution are escaped. -/
def templatePoint (c : CodePoint) (rest : Text) : Text :=
  if c == '`' then "\\`"
  else if c == '$' && opensBrace rest then "\\$"
  else [c]

/-- Text that is spelled with escapes, made safe inside a template literal. -/
def escapeSpelled : Text → Text
  | [] => []
  | .scalar '\\' :: c :: rest => '\\' :: c :: escapeSpelled rest
  | c :: rest => templatePoint c rest ++ escapeSpelled rest

/-- Text without escapes, made safe inside a template literal. -/
def escapePlain : Text → Text
  | [] => []
  | c :: rest => (if c == '\\' then ("\\\\" : Text) else templatePoint c rest) ++ escapePlain rest

end Phrasebook
