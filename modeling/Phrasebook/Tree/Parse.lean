import Phrasebook.Text.Bytes
import Phrasebook.Tree.Dialect
import Phrasebook.Tree.Node

/-!
# Parsing

The grammar of a dialect is not part of this library: whoever uses it supplies a parser, which counts
bytes. Here a text is parsed with it, faults are reported, and offsets are turned into offsets of
characters.

## Main definitions

* `Parser` — a parser for all dialects.
* `parse` — the tree of a text, where offsets count characters.
-/

namespace Phrasebook

/-- What a parser gives: a tree in which offsets count bytes, and whether there are faults in it. -/
structure Tree where
  root : Node
  faulty : Bool

/-- A parser for all dialects. -/
abbrev Parser := Dialect → Text → Tree

/-- Whether a node stands for a fault. -/
def Node.isFault (n : Node) : Bool := n.kind == "ERROR" || n.label.missing

/-- The first node of a tree that stands for a fault. -/
def Node.firstFault? (root : Node) : Option Node :=
  (root.cursors.find? fun c => c.node.isFault).map Cursor.node

/-- The problem of a text whose tree has faults. -/
def faultProblem (t file dialect : Text) (root : Node) : Problem :=
  match root.firstFault? with
  | some n =>
    let p := t.position n.start
    .placed (.unparsed dialect) (some file) p.line p.column
  | none => { cause := .unparsed dialect, file := some file }

/-- The tree of a text in a dialect, where offsets count characters. -/
def parse (parser : Parser) (t dialect file : Text) : Except Failure Node :=
  match t.firstSurrogates? 0, Dialect.ofName? dialect with
  | some e, _ => .error (.unencodable e)
  | none, none => .error (.problem { cause := .unknownDialect dialect })
  | none, some d =>
    let tree := parser d t
    let root := tree.root.mapOffsets t.charOffset
    if tree.faulty then .error (.problem (faultProblem t file dialect root)) else .ok root

end Phrasebook
