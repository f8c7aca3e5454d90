import Phrasebook.Text.Basic

/-!
# Canonical message texts

The expressions that a payload embeds are replaced by numbered placeholders, so that a message does
not depend on the code that computes its parts. A backslash before an expression makes it plain
text, and a second backslash undoes that: only an even run of them leaves the expression live.

## Main definitions

* `canonicalize` — a payload with its live expressions replaced by numbered placeholders.
-/

namespace Phrasebook

/-- The inside of the expression `${…}` that a text begins with; it is not empty and holds no closing
brace. -/
def embedded? (t : Text) : Option Text :=
  match t with
  | .scalar '$' :: .scalar '\x7b' :: rest =>
    let inner := rest.takeWhile fun (c : CodePoint) => c != '\x7d'
    if inner.isEmpty || inner.length == rest.length then none else some inner
  | _ => none

/-- The placeholder with a number. -/
def placeholder (n : Nat) : Text := "\x7barg" ++ Text.ofNat n ++ "\x7d"

/-- The length of the run of backslashes that a text begins with. -/
def backslashes (t : Text) : Nat := (t.takeWhile fun (c : CodePoint) => c == '\\').length

/-- The walk behind `canonicalize`: whether a backslash stands before, how many characters still
belong to the last expression, and how many expressions there were. -/
def canonicalFrom (afterBackslash : Bool) (skip count : Nat) : Text → Text
  | [] => []
  | c :: rest =>
    match skip with
    | skip + 1 => canonicalFrom false skip count rest
    | 0 =>
      let run := backslashes (c :: rest)
      if afterBackslash || run % 2 == 1 then c :: canonicalFrom (c == '\\') 0 count rest
      else
        match embedded? ((c :: rest).drop run) with
        | none => c :: canonicalFrom (c == '\\') 0 count rest
        | some inner =>
          (c :: rest).take run ++ placeholder (count + 1)
            ++ canonicalFrom false (run + inner.length + 2) (count + 1) rest

/-- A payload with its live expressions replaced by numbered placeholders. -/
def canonicalize (payload : Text) : Text := canonicalFrom false 0 0 payload

end Phrasebook
