import Phrasebook.Options.Basic
import Phrasebook.Site.Template

/-!
# Sites

A site is a literal of the source in which phrases may stand: a quoted string, the value of an
attribute in markup, a piece of text in markup, or a template. Some literals are no sites, such as
the name of a module or the argument of a lookup.

## Main definitions

* `Literal.ofCursor` — the literal at a node, if it is a site.
* `Extractor.resolve` — the site at a node, whose phrases have got their keys.
-/

namespace Phrasebook

/-- A literal in which phrases may stand. -/
inductive Literal where
  /-- A quoted string: its inside as it is spelled, and decoded. -/
  | quoted (raw : Text) (decoded : Decoded)
  /-- The value of an attribute in markup. -/
  | value (raw : Text)
  /-- A piece of text in markup. -/
  | markup (raw : Text)
  | template (text : TemplateText)
  deriving DecidableEq

namespace Literal

/-- The text in which phrases are looked for. -/
def content : Literal → Text
  | quoted _ decoded => decoded.text
  | value raw => raw
  | markup raw => raw
  | template text => text.combined

/-- The phrases of a literal. -/
def phrases (d : Delimiter) : Literal → List Phrase
  | template text => text.phrases d
  | l => d.phrases l.content

/-- Whether phrases are one phrase that is all of the literal. -/
def isFilledBy (l : Literal) : List Phrase → Bool
  | [p] => p.start == 0 && p.stop == l.content.length
  | _ => false

end Literal

/-- The nodes whose literals are part of the language, and no text. -/
def namesModuleOrType (n : Node) : Bool :=
  ["import_statement", "export_statement", "import_require_clause", "module", "literal_type",
    "enum_assignment"].contains n.kind

/-- Whether a node stands in a field of another. -/
def Node.isIn (n parent : Node) (field : String) : Bool :=
  (parent.child? field).any fun c => c.identity == n.identity

/-- The functions that load modules. -/
def moduleLoaders : List Text := ["require", "import"]

/-- Whether a literal is no site: it names a module, a type or a property, belongs to a tag, or is
an argument of a lookup or of a function that loads modules. -/
def isExempt (t : Text) (callNames : List Text) (c : Cursor) : Bool :=
  match c.ancestors with
  | [] => false
  | parent :: outer =>
    if namesModuleOrType parent then true
    else if parent.kind == "pair" && c.node.isIn parent "key" then true
    else if parent.kind == "call_expression" then c.node.isIn parent "arguments"
    else if parent.kind == "arguments" then
      outer.head?.any (Node.calls t (callNames ++ moduleLoaders))
    else false

/-- The inside of a literal with a delimiter of one character on either side. -/
def Node.inside (t : Text) (n : Node) : Text := t.slice (n.start + 1) (n.stop - 1)

/-- The literal of a string node. -/
def Literal.ofString (t : Text) (c : Cursor) : Except Failure Literal :=
  let raw := c.node.inside t
  if c.parent?.any fun p => p.kind == "jsx_attribute" then .ok (.value raw)
  else ((decodeLiteral raw).mapError .badEscape).map (.quoted raw)

/-- The literal at a node, if it is a site. -/
def Literal.ofCursor (t : Text) (callNames : List Text) (c : Cursor) :
    Except Failure (Option Literal) :=
  match c.node.kind with
  | "string" => if isExempt t callNames c then .ok none else (Literal.ofString t c).map some
  | "template_string" =>
    if isExempt t callNames c then .ok none
    else .ok ((TemplateText.ofNode? t c.node).map .template)
  | "jsx_text" => .ok (some (.markup (c.node.text t)))
  | _ => .ok none

/-- A literal whose phrases have got their keys. -/
structure Site where
  cursor : Cursor
  literal : Literal
  resolved : List (Phrase × Key)
  /-- Whether the literal is one phrase and nothing else. -/
  full : Bool

/-- What is needed to find sites in a text. -/
structure Extractor where
  text : Text
  file : Text
  options : Options
  delimiter : Delimiter
  /-- The known messages. -/
  catalogue : Catalogue

namespace Extractor

/-- The location of an offset. -/
def locationOf (e : Extractor) (offset : Nat) : Location := ⟨e.file, e.text.position offset⟩

/-- Give phrases their keys; those that are none when read again are left out. -/
def resolvePhrases (e : Extractor) (location : Location) :
    List Phrase → Bookkeeping (List (Phrase × Key))
  | [] => return []
  | p :: rest => do
    let key ← resolveKey e.delimiter e.options.keys e.catalogue location p.full
    let others ← e.resolvePhrases location rest
    return (key.map fun k => (p, k)).toList ++ others

/-- Give the phrases of a literal their keys; none if it has no phrase. -/
def resolveLiteral (e : Extractor) (c : Cursor) (l : Literal) : Bookkeeping (Option Site) := do
  let phrases := l.phrases e.delimiter
  let resolved ← e.resolvePhrases (e.locationOf c.node.start) phrases
  if resolved.isEmpty then return none
  return some ⟨c, l, resolved, l.isFilledBy phrases && resolved.length == 1⟩

/-- Give the phrases at a node their keys. -/
def resolve (e : Extractor) (callNames : List Text) (c : Cursor) : Bookkeeping (Option Site) := do
  match Literal.ofCursor e.text callNames c with
  | .error failure => throw failure
  | .ok none => return none
  | .ok (some l) => e.resolveLiteral c l

end Extractor

end Phrasebook
