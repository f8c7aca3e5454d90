import Phrasebook.Problem
import Phrasebook.Sorting
import Phrasebook.Text.Blank
import Phrasebook.Text.Case
import Phrasebook.Text.Word

/-!
# Blocks of components

A component file consists of blocks for its template, its scripts and its styles. A block reaches
from its opening tag to the closing tag of the same name; templates can be nested in one another.

## Main definitions

* `splitBlocks` — the blocks of a file.
* `assembleBlocks` — the file with other contents in some of them.
-/

namespace Phrasebook

/-- A block of a component file. -/
structure Block where
  name : Text
  /-- The attributes as they are written. -/
  attributes : Text
  /-- Where the content begins. -/
  start : Nat
  /-- Where it ends. -/
  stop : Nat
  content : Text
  deriving DecidableEq

/-- Whether a code point is one of the two quotes. -/
def CodePoint.isQuote (c : CodePoint) : Bool := c == '"' || c == '\''

/-- Whether a code point closes a tag. -/
def CodePoint.closesTag (c : CodePoint) : Bool := c == '>'

/-- The language that a text begins to declare: `lang`, an equals sign and a quoted text. -/
def languageAt? (t : Text) : Option Text :=
  if t.startsWith "lang" then
    match (t.drop 4).dropWhile CodePoint.isBlank with
    | .scalar '=' :: rest =>
      match rest.dropWhile CodePoint.isBlank with
      | quote :: rest =>
        let value := rest.takeWhile fun c => !c.isQuote
        if quote.isQuote && !value.isEmpty && value.length < rest.length then some value else none
      | [] => none
    | _ => none
  else none

/-- The first language that is declared where no word goes on. -/
def languageFrom? (afterWord : Bool) : Text → Option Text
  | [] => none
  | c :: rest =>
    match if afterWord then none else languageAt? (c :: rest) with
    | some language => some language
    | none => languageFrom? c.isWord rest

/-- Whether the word `setup` stands at the beginning of a text, and ends there. -/
def setupAt (t : Text) : Bool :=
  t.startsWith "setup" && (t.drop 5).head?.all fun (c : CodePoint) => c.isBlank || c == '='

/-- Whether the word `setup` stands somewhere behind white space, or at the beginning. -/
def hasSetup (afterBlank : Bool) : Text → Bool
  | [] => false
  | c :: rest => (afterBlank && setupAt (c :: rest)) || hasSetup c.isBlank rest

namespace Block

/-- The language of a block. -/
def language? (b : Block) : Option Text := (languageFrom? false b.attributes).map Text.lower

/-- Whether a block is a setup script. -/
def isSetup (b : Block) : Bool := b.name == "script" && hasSetup true b.attributes

end Block

/-- The opening tag of a block. -/
structure OpeningTag where
  /-- The name in lower case. -/
  name : Text
  attributes : Text
  length : Nat
  deriving DecidableEq

/-- Whether a tag closes itself. -/
def OpeningTag.closesItself (tag : OpeningTag) : Bool := tag.attributes.trimRight.endsWith "/"

/-- The names of blocks. -/
def blockNames : List Text := ["template", "script", "style"]

/-- The attributes that a text begins with, up to the end of the tag; the tag may also end at once. -/
def attributesAt? : Text → Option Text
  | [] => none
  | c :: rest =>
    if c.closesTag then some []
    else if c.isBlank then
      let attributes := (c :: rest).takeWhile fun c => !c.closesTag
      if attributes.length ≤ rest.length then some attributes else none
    else none

/-- The opening tag that a text begins with. -/
def openingTagAt? : Text → Option OpeningTag
  | .scalar '<' :: rest =>
    match blockNames.find? fun name => Text.startsWithAnyCase rest name with
    | none => none
    | some name =>
      (attributesAt? (rest.drop name.length)).map fun attributes =>
        ⟨Text.lower (rest.take name.length), attributes, name.length + attributes.length + 2⟩
  | _ => none

/-- The length of the closing tag with a name that a text begins with. -/
def closingTagAt? (name t : Text) : Option Nat :=
  if t.startsWith "</" && Text.startsWithAnyCase (t.drop 2) name then
    let rest := t.drop (2 + name.length)
    let blanks := rest.takeWhile CodePoint.isBlank
    if (rest.drop blanks.length).head?.any CodePoint.closesTag then
      some (2 + name.length + blanks.length + 1)
    else none
  else none

/-- Where the first closing tag with a name begins in a text, and its length. -/
def findClosingTag? (name : Text) (offset : Nat) : Text → Option (Nat × Nat)
  | [] => none
  | c :: rest =>
    match closingTagAt? name (c :: rest) with
    | some length => some (offset, length)
    | none => findClosingTag? name (offset + 1) rest

/-- A tag of a template, opening or closing. -/
structure TemplateTag where
  closing : Bool
  closesItself : Bool
  length : Nat
  deriving DecidableEq

/-- The tag of a template that a text begins with, after what opens the tag. -/
def templateTagAfter? (closing : Bool) (opening : Nat) (t : Text) : Option TemplateTag :=
  let word : Text := "template"
  if t.startsWithAnyCase word then
    let rest := t.drop word.length
    let inner := rest.takeWhile fun c => !c.closesTag
    if inner.length < rest.length && !(rest.head?.any CodePoint.isWord) then
      some ⟨closing, Text.endsWith inner "/", opening + word.length + inner.length + 1⟩
    else none
  else none

/-- The tag of a template that a text begins with. -/
def templateTagAt? : Text → Option TemplateTag
  | .scalar '<' :: .scalar '/' :: rest => templateTagAfter? true 2 rest
  | .scalar '<' :: rest => templateTagAfter? false 1 rest
  | _ => none

/-- Where the tag that closes a template begins, and its length. `depth` templates are open around,
and `skip` characters still belong to the last tag. -/
def findTemplateEnd? (offset skip depth : Nat) : Text → Option (Nat × Nat)
  | [] => none
  | c :: rest =>
    match skip with
    | skip + 1 => findTemplateEnd? (offset + 1) skip depth rest
    | 0 =>
      match templateTagAt? (c :: rest) with
      | none => findTemplateEnd? (offset + 1) 0 depth rest
      | some tag =>
        if tag.closing then
          match depth with
          | 0 => some (offset, tag.length)
          | depth + 1 => findTemplateEnd? (offset + 1) (tag.length - 1) depth rest
        else
          findTemplateEnd? (offset + 1) (tag.length - 1)
            (if tag.closesItself then depth else depth + 1) rest

/-- Where the content of a block ends in the text behind its opening tag, and the length of its
closing tag. -/
def contentEnd? (name t : Text) : Option (Nat × Nat) :=
  if name == "template" then findTemplateEnd? 0 0 0 t else findClosingTag? name 0 t

/-- The blocks of a text that begins at an offset; `skip` characters still belong to the last one. -/
def splitBlocksFrom (offset skip : Nat) : Text → Except Problem (List Block)
  | [] => .ok []
  | c :: rest =>
    match skip with
    | skip + 1 => splitBlocksFrom (offset + 1) skip rest
    | 0 =>
      match openingTagAt? (c :: rest) with
      | none => splitBlocksFrom (offset + 1) 0 rest
      | some tag =>
        if tag.closesItself then splitBlocksFrom (offset + 1) (tag.length - 1) rest
        else
          let inner := (c :: rest).drop tag.length
          match contentEnd? tag.name inner with
          | none => .error { cause := .unclosedBlock tag.name offset }
          | some (length, closing) =>
            let start := offset + tag.length
            let block : Block :=
              ⟨tag.name, tag.attributes, start, start + length, inner.take length⟩
            (splitBlocksFrom (offset + 1) (tag.length + length + closing - 1) rest).map (block :: ·)

/-- The blocks of a component file. -/
def splitBlocks (t : Text) : Except Problem (List Block) := splitBlocksFrom 0 0 t

/-- Replace the contents of blocks, from the last to the first. -/
def replaceContents (t : Text) (contents : List (Block × Text)) : Text :=
  (sortDescending (fun c : Block × Text => [(c.1.start : Int)]) contents).foldl
    (fun out c => out.splice c.1.start c.1.stop c.2) t

/-- A file with the contents of some blocks replaced, which are given by their index; a negative
index counts from the end. -/
def assembleBlocks (t : Text) (blocks : List Block) (contents : List (Int × Text)) :
    Except Failure Text := do
  let found ← contents.mapM fun (index, content) =>
    match itemAt? blocks index with
    | some block => .ok (block, content)
    | none => .error Failure.badIndex
  return replaceContents t found

end Phrasebook
