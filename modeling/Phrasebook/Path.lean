import Phrasebook.Text.Case

/-!
# Paths

A path is a list of names, below the root of the directories or not. Empty names and single dots
drop out; two dots stay, because only the directories themselves can tell what they lead to.

## Main definitions

* `Path.ofText`, `Path.text` — how a path is read and written.
* `Path.normalize` — a path seen from a directory, without two dots.
-/

namespace Phrasebook

/-- A path: what it begins with, and its names. -/
structure Path where
  /-- Nothing, a slash, or two slashes. -/
  anchor : Text
  names : List Text
  deriving DecidableEq

namespace Path

/-- What a path begins with: exactly two slashes stay, any other number counts as one. -/
def anchorOf (t : Text) : Text :=
  match (t.takeWhile fun (c : CodePoint) => c == '/').length with
  | 0 => []
  | 2 => "//"
  | _ => "/"

/-- The path that a text spells. -/
def ofText (t : Text) : Path :=
  ⟨anchorOf t, (t.splitWhere fun c => c == '/').filter fun name => !name.isEmpty && name != "."⟩

/-- How a path is written. -/
def text (p : Path) : Text :=
  if p.anchor.isEmpty && p.names.isEmpty then "." else p.anchor ++ Text.join "/" p.names

/-- The last name of a path; empty if it has none. -/
def name (p : Path) : Text := p.names.getLast?.getD []

/-- The suffix of a name: from its last dot on, unless that is its first or last character. -/
def suffixOf (name : Text) : Text :=
  let after := (name.reverse.takeWhile fun (c : CodePoint) => c != '.').reverse
  if after.isEmpty || name.length ≤ after.length + 1 then [] else '.' :: after

/-- The suffix of a path. -/
def suffix (p : Path) : Text := suffixOf p.name

/-- A path below a path. -/
def child (p : Path) (name : Text) : Path := { p with names := p.names ++ [name] }

/-- The path above a path. -/
def parent (p : Path) : Path := { p with names := p.names.dropLast }

/-- The names of a path without two dots: each takes away the name before it. -/
def withoutDots (names : List Text) : List Text :=
  names.foldl (fun (kept : List Text) (name : Text) =>
    if name == ".." then kept.dropLast else kept ++ [name]) []

/-- A path seen from a directory, from the root on and without two dots. -/
def normalize (directory p : Path) : Path :=
  ⟨"/", withoutDots (if p.anchor.isEmpty then directory.names ++ p.names else p.names)⟩

/-- The order of paths: name by name. -/
def namesLe : List Text → List Text → Bool
  | [], _ => true
  | _ :: _, [] => false
  | a :: s, b :: t => if a == b then namesLe s t else a.ble b

end Path

end Phrasebook
