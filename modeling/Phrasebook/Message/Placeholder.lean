import Phrasebook.Message.Canonical
import Phrasebook.Sorting
import Phrasebook.Text.Blank
import Phrasebook.Text.Word

/-!
# Placeholders in plain text

Text outside of any literal can still name values: an embedded expression is bound to a numbered
argument, and a name in braces to the variable of that name.

## Main definitions

* `informalArguments` — the arguments that a payload in plain text names.
* `renderArguments` — arguments as they are passed.
-/

namespace Phrasebook

/-- An argument of a lookup: its name and its expression. -/
structure Argument where
  name : Text
  expression : Text
  deriving DecidableEq

/-- The name in braces that a text begins with. -/
def bracedName? (t : Text) : Option Text :=
  match t with
  | .scalar '\x7b' :: c :: rest =>
    if c.isIdentifierStart then
      let tail := rest.takeWhile CodePoint.isIdentifierPart
      if (rest.drop tail.length).head? == some '\x7d' then some (c :: tail) else none
    else none
  | _ => none

/-- The name of the argument with a number. -/
def argumentName (n : Nat) : Text := "arg" ++ Text.ofNat n

/-- The embedded expressions of a text that begins at an offset, `count` of them before it; `skip`
characters still belong to the last one. -/
def positionalArguments (offset skip count : Nat) : Text → List (Nat × Argument)
  | [] => []
  | c :: rest =>
    match skip with
    | skip + 1 => positionalArguments (offset + 1) skip count rest
    | 0 =>
      match embedded? (c :: rest) with
      | none => positionalArguments (offset + 1) 0 count rest
      | some inner =>
        (offset, ⟨argumentName (count + 1), inner.trim⟩)
          :: positionalArguments (offset + 1) (inner.length + 2) (count + 1) rest

/-- The names in braces of a text that begins at an offset, those after a dollar apart; `skip`
characters still belong to the last one. -/
def namedArguments (afterDollar : Bool) (offset skip : Nat) : Text → List (Nat × Argument)
  | [] => []
  | c :: rest =>
    match skip with
    | skip + 1 => namedArguments false (offset + 1) skip rest
    | 0 =>
      match if afterDollar then none else bracedName? (c :: rest) with
      | none => namedArguments (c == '$') (offset + 1) 0 rest
      | some name =>
        (offset, ⟨name, name⟩) :: namedArguments false (offset + 1) (name.length + 1) rest

/-- Arguments of which no two have one name: of those that do, the first stays. -/
def dropRepeated (arguments : List Argument) : List Argument :=
  arguments.foldl (fun kept a => if kept.any fun b => b.name == a.name then kept else kept ++ [a]) []

/-- The arguments that a payload in plain text names, in the order of the text. -/
def informalArguments (payload : Text) : List Argument :=
  let found := positionalArguments 0 0 0 payload ++ namedArguments false 0 0 payload
  dropRepeated ((sortAscending (fun f => [(f.1 : Int)]) found).map Prod.snd)

/-- Arguments as they are passed: an expression that is its own name is written once. -/
def renderArguments (arguments : List Argument) : Text :=
  let parts : List Text := arguments.map fun a =>
    if a.name == a.expression then a.name else a.name ++ ": " ++ a.expression
  "\x7b " ++ Text.join ", " parts ++ " \x7d"

end Phrasebook
