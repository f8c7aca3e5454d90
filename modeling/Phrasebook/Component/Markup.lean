import Phrasebook.Component.Block
import Phrasebook.Message.Key

/-!
# Markup of templates

The template of a component is cut into tags and text; comments are left out. In tags there are
attributes with quoted values, in text there are expressions in double braces, and in expressions
there are string literals.

## Main definitions

* `markupParts`, `attributesOf`, `mustaches`, `stringLiterals` — the four scanners.
-/

namespace Phrasebook

/-- A part of a template, by its span. -/
inductive Part where
  | tag (start stop : Nat)
  | text (start stop : Nat)
  deriving DecidableEq

/-- What the scanner of markup is in. -/
inductive MarkupState where
  /-- In text that began at an offset. -/
  | text (start : Nat)
  /-- In a comment that has still some characters. -/
  | comment (left : Nat)
  /-- In a tag that began at an offset, possibly between quotes. -/
  | tag (start : Nat) (quote : Option CodePoint)
  deriving DecidableEq

/-- The text between two offsets, unless it is empty. -/
def textPart (start stop : Nat) : List Part := if start < stop then [.text start stop] else []

/-- How many characters the comment has that a text begins with; all of them if it is not closed. -/
def commentLength (t : Text) : Nat :=
  match Text.findFrom? "-->" t 4 with
  | some close => close + 3
  | none => t.length

/-- The parts of markup that begins at an offset, given what the scanner is in. -/
def markupPartsFrom (offset : Nat) : MarkupState → Text → List Part
  | .text start, [] => textPart start offset
  | .comment _, [] => []
  | .tag start _, [] => [.tag start offset]
  | .text start, c :: rest =>
    if c == '<' then
      textPart start offset ++
        if Text.startsWith (c :: rest) "<!--" then
          markupPartsFrom (offset + 1) (.comment (commentLength (c :: rest) - 1)) rest
        else markupPartsFrom (offset + 1) (.tag offset none) rest
    else markupPartsFrom (offset + 1) (.text start) rest
  | .comment left, _ :: rest =>
    markupPartsFrom (offset + 1) (if left ≤ 1 then .text (offset + 1) else .comment (left - 1)) rest
  | .tag start (some quote), c :: rest =>
    markupPartsFrom (offset + 1) (.tag start (if c == quote then none else some quote)) rest
  | .tag start none, c :: rest =>
    if c.isQuote then markupPartsFrom (offset + 1) (.tag start (some c)) rest
    else if c.closesTag then
      .tag start (offset + 1) :: markupPartsFrom (offset + 1) (.text (offset + 1)) rest
    else markupPartsFrom (offset + 1) (.tag start none) rest

/-- The tags and texts of a template. -/
def markupParts (t : Text) : List Part := markupPartsFrom 0 (.text 0) t

/-- An attribute of a tag with a quoted value. -/
structure Attribute where
  name : Text
  quote : QuoteMark
  start : Nat
  valueStart : Nat
  /-- Where its value ends, one before the attribute does. -/
  valueStop : Nat
  deriving DecidableEq

/-- Where an attribute ends. -/
def Attribute.stop (a : Attribute) : Nat := a.valueStop + 1

/-- Whether the value of an attribute is an expression. -/
def Attribute.isBound (a : Attribute) : Bool :=
  a.name.startsWith ":" || a.name.startsWith "@" || a.name.startsWith "#" || a.name.startsWith "v-"

/-- Whether a code point can stand in the name of an attribute. -/
def CodePoint.isAttributeName (c : CodePoint) : Bool :=
  !(c.isBlank || c.isQuote || c == '=' || c == '/' || c == '>')

/-- The quote that a code point is. -/
def QuoteMark.ofPoint? (c : CodePoint) : Option QuoteMark :=
  [double, single].find? fun q => q.point == c

/-- The attribute that a text begins with, where the text stands at an offset. -/
def attributeAt? (offset : Nat) (t : Text) : Option Attribute := do
  let name := t.takeWhile CodePoint.isAttributeName
  let rest := t.drop name.length
  let blanks := rest.takeWhile CodePoint.isBlank
  let rest := rest.drop blanks.length
  let moreBlanks := (rest.drop 1).takeWhile CodePoint.isBlank
  let value := rest.drop (1 + moreBlanks.length)
  let quote ← value.head?.bind QuoteMark.ofPoint?
  let inside := (value.drop 1).takeWhile fun c => c != quote.point
  let valueStart := offset + name.length + blanks.length + moreBlanks.length + 2
  if name.isEmpty || rest.head? != some '=' || value.length ≤ inside.length + 1 then none
  else some ⟨name, quote, offset, valueStart, valueStart + inside.length⟩

/-- The attributes in a text that begins at an offset; `skip` characters do not count. -/
def attributesFrom (offset skip : Nat) : Text → List Attribute
  | [] => []
  | c :: rest =>
    match skip with
    | skip + 1 => attributesFrom (offset + 1) skip rest
    | 0 =>
      match attributeAt? offset (c :: rest) with
      | none => attributesFrom (offset + 1) 0 rest
      | some a => a :: attributesFrom (offset + 1) (a.stop - offset - 1) rest

/-- The length of the name of a tag, with what opens the tag. -/
def tagNameLength (tag : Text) : Nat :=
  let opening := if tag.startsWith "</" then 2 else 1
  opening +
    ((tag.drop opening).takeWhile fun (c : CodePoint) => !(c.isBlank || c == '>' || c == '/')).length

/-- The attributes of a tag that begins at an offset. -/
def attributesOf (offset : Nat) (tag : Text) : List Attribute :=
  attributesFrom offset (tagNameLength tag) tag

/-- The spans of the expressions in double braces, without the braces, in a text that begins at an
offset; `skip` characters still belong to the last one. -/
def mustachesFrom (offset skip : Nat) : Text → List (Nat × Nat)
  | [] => []
  | c :: rest =>
    match skip with
    | skip + 1 => mustachesFrom (offset + 1) skip rest
    | 0 =>
      match
        if Text.startsWith (c :: rest) "\x7b\x7b" then Text.findFrom? "\x7d\x7d" (c :: rest) 2
        else none with
      | none => mustachesFrom (offset + 1) 0 rest
      | some close =>
        (offset + 2, offset + close) :: mustachesFrom (offset + 1) (close + 1) rest

/-- The spans of the expressions in double braces, without the braces. -/
def mustaches (offset : Nat) (t : Text) : List (Nat × Nat) := mustachesFrom offset 0 t

/-- The length of what a string literal has behind its opening quote; none if it is not closed on its
line. -/
def stringRest? (quote : CodePoint) : Text → Option Nat
  | [] => none
  | c :: rest =>
    if c == quote then some 1
    else if c == '\n' then none
    else if c == '\\' then
      match rest with
      | [] => none
      | d :: rest => if d == '\n' then none else (stringRest? quote rest).map (· + 2)
    else (stringRest? quote rest).map (· + 1)

/-- The length of the string literal that a text begins with. -/
def stringLength? : Text → Option Nat
  | [] => none
  | c :: rest => if c.isQuote then (stringRest? c rest).map (· + 1) else none

/-- The spans of the string literals in a text that begins at an offset; `skip` characters still
belong to the last one. -/
def stringLiteralsFrom (offset skip : Nat) : Text → List (Nat × Nat)
  | [] => []
  | c :: rest =>
    match skip with
    | skip + 1 => stringLiteralsFrom (offset + 1) skip rest
    | 0 =>
      match stringLength? (c :: rest) with
      | none => stringLiteralsFrom (offset + 1) 0 rest
      | some length => (offset, offset + length) :: stringLiteralsFrom (offset + 1) (length - 1) rest

/-- The spans of the string literals in an expression. -/
def stringLiterals (expression : Text) : List (Nat × Nat) := stringLiteralsFrom 0 0 expression

end Phrasebook
