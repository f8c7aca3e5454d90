import Phrasebook.Component.Markup
import Phrasebook.Edit.Apply
import Phrasebook.Site.Replacement

/-!
# Phrases in templates of components

Phrases stand in the text of a template, in the values of its attributes, and in the string literals
of its expressions. In text they become expressions in double braces; an attribute becomes a bound
one; a string literal becomes a call, or a template literal with calls in it. Keys are spelled so
that they cannot close the attribute around them.

## Main definitions

* `TemplateBlock.splices` — the replacements in a template, as they are found.
* `TemplateBlock.convert` — the converted template, and its changes in order.
-/

namespace Phrasebook

/-- A template block, and what is needed to find its phrases. -/
structure TemplateBlock where
  /-- The whole file, its options and the known messages. -/
  extractor : Extractor
  /-- Where the content of the block begins. -/
  start : Nat
  content : Text
  callName : Text

/-- The function that looks messages up in every template. -/
def globalCallName : Text := "$t"

/-- Whether what stands before a literal opens a call that looks messages up. -/
def opensLookup (callName before : Text) : Bool :=
  before.trimRight.endsWith (callName ++ "(") || before.trimRight.endsWith (globalCallName ++ "(")

namespace TemplateBlock

/-- A call that looks a payload up, with its comment, between the quotes of an attribute or outside
of any. -/
def lookup (b : TemplateBlock) (quote : Option QuoteMark) (key : Key) (payload : Text)
    (arguments : List Argument) : Text :=
  let passed : Text := if arguments.isEmpty then [] else ", " ++ renderArguments arguments
  b.callName ++ "(" ++ key.attributeLiteral quote ++ passed ++ ")"
    ++ b.extractor.options.comment (canonicalize payload) true

/-- A call as a substitution of a template literal. -/
def embedded (b : TemplateBlock) (quote : Option QuoteMark) (p : Phrase) (key : Key) : Text :=
  substitution (b.lookup quote key p.payload [])

/-- Give a phrase its key; it stands at an offset of the content. -/
def resolve (b : TemplateBlock) (offset : Nat) (p : Phrase) : Bookkeeping (Option Key) :=
  let e := b.extractor
  resolveKey e.delimiter e.options.keys e.catalogue (e.locationOf (b.start + offset)) p.full

/-- Give phrases their keys; `offset` tells where each of them stands. -/
def resolveAll (b : TemplateBlock) (offset : Phrase → Nat) :
    List Phrase → Bookkeeping (List (Phrase × Key))
  | [] => return []
  | p :: rest => do
    let key ← b.resolve (offset p) p
    let others ← b.resolveAll offset rest
    return (key.map fun k => (p, k)).toList ++ others

/-- What takes the place of phrases in a literal: a call if they are one phrase that is all of it. -/
def callOrTemplate (b : TemplateBlock) (quote : Option QuoteMark) (l : Literal)
    (phrases : List Phrase) (resolved : List (Phrase × Key)) : Text :=
  match l.isFilledBy phrases, resolved, l with
  | true, [(p, key)], _ => b.lookup quote key p.payload []
  | _, _, .quoted raw decoded => spelledTemplate raw decoded (b.embedded quote) resolved
  | _, _, l => plainTemplate l.content (b.embedded quote) resolved

/-- The replacements in text without expressions. -/
def plainTextSplices (b : TemplateBlock) (start stop : Nat) : Bookkeeping (List Splice) := do
  let phrases := b.extractor.delimiter.phrases (b.content.slice start stop)
  let resolved ← b.resolveAll (fun p => start + p.start) phrases
  return resolved.map fun (p, key) =>
    ⟨start + p.start, start + p.stop,
      "\x7b\x7b " ++ b.lookup none key p.payload (informalArguments p.payload) ++ " \x7d\x7d"⟩

/-- The replacement of a string literal in an expression. -/
def literalSplice (b : TemplateBlock) (quote : Option QuoteMark) (start : Nat) (expression : Text)
    (span : Nat × Nat) : Bookkeeping (List Splice) := do
  if opensLookup b.callName (expression.take span.1) then return []
  let raw := expression.slice (span.1 + 1) (span.2 - 1)
  match decodeLiteral raw with
  | .error e => throw (.badEscape e)
  | .ok decoded =>
    let phrases := b.extractor.delimiter.phrases decoded.text
    let resolved ← b.resolveAll (fun _ => start + span.1) phrases
    if resolved.isEmpty then return []
    return [⟨start + span.1, start + span.2,
      b.callOrTemplate quote (.quoted raw decoded) phrases resolved⟩]

/-- Run a step for every element, and put the replacements together. -/
def gather {α : Type} (step : α → Bookkeeping (List Splice)) : List α → Bookkeeping (List Splice)
  | [] => return []
  | a :: rest => do
    let here ← step a
    let others ← gather step rest
    return here ++ others

/-- The replacements in an expression, between the quotes of an attribute or outside of any. -/
def expressionSplices (b : TemplateBlock) (quote : Option QuoteMark) (start stop : Nat) :
    Bookkeeping (List Splice) :=
  let expression := b.content.slice start stop
  gather (b.literalSplice quote start expression) (stringLiterals expression)

/-- The replacements in text from `cursor` to `stop`, given the expressions in it. -/
def textSplices (b : TemplateBlock) (cursor stop : Nat) :
    List (Nat × Nat) → Bookkeeping (List Splice)
  | [] => b.plainTextSplices cursor stop
  | (first, last) :: rest => do
    let before ← b.plainTextSplices cursor (first - 2)
    let inside ← b.expressionSplices none first last
    let after ← b.textSplices (last + 2) stop rest
    return before ++ inside ++ after

/-- The replacement of an attribute whose value is plain text. -/
def staticSplice (b : TemplateBlock) (a : Attribute) : Bookkeeping (List Splice) := do
  let value := b.content.slice a.valueStart a.valueStop
  let phrases := b.extractor.delimiter.phrases value
  let resolved ← b.resolveAll (fun p => a.valueStart + p.start) phrases
  if resolved.isEmpty then return []
  let expression := b.callOrTemplate (some a.quote) (.value value) phrases resolved
  return [⟨a.start, a.stop,
    ":" ++ a.name ++ "=" ++ [a.quote.point] ++ expression ++ [a.quote.point]⟩]

/-- The replacements in an attribute. -/
def attributeSplices (b : TemplateBlock) (a : Attribute) : Bookkeeping (List Splice) :=
  if a.isBound then b.expressionSplices (some a.quote) a.valueStart a.valueStop
  else b.staticSplice a

/-- The replacements in a part of the template. -/
def partSplices (b : TemplateBlock) : Part → Bookkeeping (List Splice)
  | .tag start stop => gather b.attributeSplices (attributesOf start (b.content.slice start stop))
  | .text start stop => b.textSplices start stop (mustaches start (b.content.slice start stop))

/-- The replacements in a template, as they are found. -/
def splices (b : TemplateBlock) : Bookkeeping (List Splice) :=
  gather b.partSplices (markupParts b.content)

/-- The change of the whole file that a replacement in the template amounts to. -/
def change (b : TemplateBlock) (s : Splice) : Change :=
  .make b.extractor.text b.extractor.file (b.start + s.start) (b.start + s.stop) s.text

/-- Make replacements from the last to the first, and list their changes in order. -/
def rewrite (b : TemplateBlock) (splices : List Splice) : Text × List Change :=
  let done := (sortDescending Splice.orderKey splices).foldl
    (fun (out, changes) s => (s.apply out, changes ++ [b.change s])) (b.content, [])
  (done.1, done.2.reverse)

/-- The converted template, and its changes in order. -/
def convert (b : TemplateBlock) : Bookkeeping (Text × List Change) := do
  let splices ← b.splices
  return b.rewrite splices

end TemplateBlock

end Phrasebook
