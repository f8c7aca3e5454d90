import Phrasebook.Text.Basic

/-!
# Syntax trees

A node of a syntax tree has a label, which tells what it is and where it stands, and children. A
cursor is a node together with its ancestors, so that one can look up from it as well as down.

## Main definitions

* `Node`, `Cursor` — a node, and a node with its ancestors.
* `Node.walk` — a node and all below it, each before its children.
* `Node.ofRows` — the tree whose labels are given with their depths.
-/

namespace Phrasebook

/-- What a node is and where it stands. -/
structure Label where
  kind : String
  /-- Whether it stands for a rule of the grammar, and not for a token. -/
  named : Bool := true
  /-- Whether it was made up where something is missing. -/
  missing : Bool := false
  start : Nat
  stop : Nat
  /-- The field of its parent in which it stands. -/
  field : Option String := none
  deriving DecidableEq

/-- A node of a syntax tree. -/
inductive Node where
  | mk (label : Label) (children : List Node)

namespace Node

/-- The label of a node. -/
def label : Node → Label
  | mk l _ => l

/-- The children of a node. -/
def children : Node → List Node
  | mk _ cs => cs

/-- The kind of a node. -/
def kind (n : Node) : String := n.label.kind

/-- Where a node begins. -/
def start (n : Node) : Nat := n.label.start

/-- Where a node ends. -/
def stop (n : Node) : Nat := n.label.stop

/-- Whether a node stands for a rule of the grammar. -/
def named (n : Node) : Bool := n.label.named

/-- What tells a node from others: its span and its kind. -/
def identity (n : Node) : Nat × Nat × String := (n.start, n.stop, n.kind)

/-- The text of a node. -/
def text (t : Text) (n : Node) : Text := t.slice n.start n.stop

/-- The first child in a field. -/
def child? (n : Node) (field : String) : Option Node :=
  n.children.find? fun c => c.label.field == some field

/-- The children that stand for rules of the grammar. -/
def namedChildren (n : Node) : List Node := n.children.filter named

/-- Whether a node stands for a rule of the grammar and is no comment. -/
def isContent (n : Node) : Bool := n.named && n.kind != "comment"

/-- The children that stand for rules of the grammar and are no comments. -/
def contents (n : Node) : List Node := n.children.filter isContent

/-- Whether a node is a function. -/
def isFunction (n : Node) : Bool :=
  ["function_declaration", "function_expression", "function", "generator_function_declaration",
    "generator_function", "arrow_function", "method_definition"].contains n.kind

/-- Whether a node is an element of markup. -/
def isMarkup (n : Node) : Bool :=
  ["jsx_element", "jsx_self_closing_element", "jsx_fragment"].contains n.kind

/-- Whether a node calls one of some functions. -/
def calls (t : Text) (names : List Text) (n : Node) : Bool :=
  (n.child? "function").any fun callee => names.contains (callee.text t)

mutual

/-- What a node is without the parentheses around it. -/
def unwrap : Node → Option Node
  | mk l cs => if l.kind == "parenthesized_expression" then unwrapFirst cs else some (mk l cs)

/-- What the first of some nodes that is no comment is without the parentheses around it. -/
def unwrapFirst : List Node → Option Node
  | [] => none
  | c :: cs => if c.isContent then unwrap c else unwrapFirst cs

end

mutual

/-- How many nodes a tree has. -/
def size : Node → Nat
  | mk _ cs => sizeAll cs + 1

/-- How many nodes some trees have. -/
def sizeAll : List Node → Nat
  | [] => 0
  | c :: cs => size c + sizeAll cs

end

mutual

/-- A tree with its offsets changed. -/
def mapOffsets (f : Nat → Nat) : Node → Node
  | mk l cs => mk { l with start := f l.start, stop := f l.stop } (mapOffsetsAll f cs)

/-- Trees with their offsets changed. -/
def mapOffsetsAll (f : Nat → Nat) : List Node → List Node
  | [] => []
  | c :: cs => mapOffsets f c :: mapOffsetsAll f cs

end

end Node

/-- A node and its ancestors, of which the parent comes first. -/
structure Cursor where
  node : Node
  ancestors : List Node

namespace Cursor

/-- The parent of a node. -/
def parent? (c : Cursor) : Option Node := c.ancestors.head?

end Cursor

namespace Node

mutual

/-- A node and all below it, each before its children. -/
def walk (ancestors : List Node) : Node → List Cursor
  | mk l cs => ⟨mk l cs, ancestors⟩ :: walkAll (mk l cs :: ancestors) cs

/-- Some nodes and all below them. -/
def walkAll (ancestors : List Node) : List Node → List Cursor
  | [] => []
  | c :: cs => walk ancestors c ++ walkAll ancestors cs

end

/-- All nodes of a tree, each before its children. -/
def cursors (root : Node) : List Cursor := root.walk []

end Node

/-- A label and its depth in a tree. -/
structure Row where
  /-- How many ancestors the node has. -/
  depth : Nat
  label : Label

/-- Put a row before trees that come after it: those that are deeper are its children. -/
def Row.graft (r : Row) (forest : List (Nat × Node)) : List (Nat × Node) :=
  let children := forest.takeWhile fun tree => r.depth < tree.1
  (r.depth, .mk r.label (children.map Prod.snd)) :: forest.drop children.length

/-- The tree whose labels, each before those of its children, are given with their depths. -/
def Node.ofRows (rows : List Row) : Option Node :=
  (rows.foldr Row.graft []).head?.map Prod.snd

end Phrasebook
