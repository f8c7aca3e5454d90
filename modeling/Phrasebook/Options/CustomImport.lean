import Phrasebook.Pattern.Matcher
import Phrasebook.Pattern.Reader

/-!
# Import statements of the caller

A caller may give the import statement for plain code as it is to stand in the file. It must bind
one name, in one of the forms `import t from "x"`, `import { say as t } from "x"` and
`import * as i18n from "x"`.

## Main definitions

* `ImportKind`, `CustomImport` — how a name is imported, and a statement that does so.
* `importPattern`, `namedClausePattern`, `starClausePattern`, `identifierPattern` — the patterns that are matched.
* `CustomImport.parse?` — the statement that a text spells.
-/

namespace Phrasebook

/-- How a name is imported. -/
inductive ImportKind where
  | named
  | default
  /-- As the namespace of the whole module. -/
  | star
  /-- In a way that is not known, for which nothing is written. -/
  | other (word : Text)
  deriving DecidableEq

/-- The word for a way to import. -/
def ImportKind.word : ImportKind → Text
  | named => "named"
  | default => "default"
  | star => "namespace"
  | other word => word

/-- The way to import that a word stands for. -/
def ImportKind.ofWord (t : Text) : ImportKind :=
  ([named, default, star].find? fun k => k.word == t).getD (other t)

/-- A whole import statement; the clause, a quote and the module are captured. -/
def importPattern : Pattern :=
  (Pattern.parse ("^\\s*import\\s+(?P<clause>[^'\"]+?)\\s+" ++
    "from\\s+(?P<quote>['\"])(?P<source>[^'\"]+)(?P=quote)\\s*;?\\s*$")).toOption.get (by decide +kernel)

/-- A clause with one name in braces, which may be given another name. -/
def namedClausePattern : Pattern :=
  (Pattern.parse ("^\\\x7b\\s*(?P<name>[A-Za-z_$][\\w$]*)(?:\\s+as\\s+(?P<alias>[A-Za-z_$][\\w$]*))?" ++
    "\\s*,?\\s*\\\x7d$")).toOption.get (by decide +kernel)

/-- A clause for the whole module. -/
def starClausePattern : Pattern :=
  (Pattern.parse "^\\*\\s*as\\s+(?P<name>[A-Za-z_$][\\w$]*)$").toOption.get (by decide +kernel)

/-- An identifier. -/
def identifierPattern : Pattern :=
  (Pattern.parse "^[A-Za-z_$][\\w$]*$").toOption.get (by decide +kernel)

/-- Whether a text is an identifier, where a line feed at its end is let pass. -/
def isIdentifierLine (t : Text) : Bool := (identifierPattern.match? t).isSome

/-- An import statement that binds one name. -/
structure CustomImport where
  /-- The statement without white space around it. -/
  statement : Text
  source : Text
  kind : ImportKind
  name : Text
  /-- The name under which it is known, if that is another. -/
  newName : Option Text
  deriving DecidableEq

namespace CustomImport

/-- The name that the statement binds. -/
def localName (c : CustomImport) : Text := c.newName.getD c.name

/-- The import of a clause. -/
def ofClause? (statement source clause : Text) : Option CustomImport :=
  match namedClausePattern.match? clause with
  | some hit =>
    some ⟨statement, source, .named, (hit.part? clause 1).getD [], hit.part? clause 2⟩
  | none =>
    match starClausePattern.match? clause with
    | some hit => some ⟨statement, source, .star, (hit.part? clause 1).getD [], none⟩
    | none =>
      if isIdentifierLine clause then some ⟨statement, source, .default, clause, none⟩ else none

/-- Read an import statement that binds one name. -/
def parse? (statement : Text) : Option CustomImport := do
  let hit ← importPattern.match? statement
  let clause ← hit.part? statement 1
  let source ← hit.part? statement 3
  ofClause? statement.trim source clause.trim

end CustomImport

end Phrasebook
