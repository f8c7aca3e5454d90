import Phrasebook.Path
import Phrasebook.Problem

/-!
# Dialects

The dialects of the source language, and how a file's name or a script's language tells them.

## Main definitions

* `Dialect.ofName?`, `Dialect.ofLanguage?`, `Dialect.ofPath` — what tells a dialect.
-/

namespace Phrasebook

/-- A dialect of the source language. -/
inductive Dialect where
  | javascript
  | typescript
  | tsx
  deriving DecidableEq

namespace Dialect

/-- The name of a dialect. -/
def name : Dialect → Text
  | javascript => "javascript"
  | typescript => "typescript"
  | tsx => "tsx"

/-- The dialect with a name. -/
def ofName? (t : Text) : Option Dialect :=
  [javascript, typescript, tsx].find? fun d => d.name == t

/-- The suffixes of files, and their dialects. -/
def suffixes : List (Text × Dialect) :=
  [(".js", javascript), (".jsx", javascript), (".mjs", javascript), (".cjs", javascript),
    (".ts", typescript), (".mts", typescript), (".cts", typescript), (".tsx", tsx)]

/-- The dialect of files with a suffix. -/
def ofSuffix? (suffix : Text) : Option Dialect := suffixes.lookup suffix

/-- The languages of scripts in components, and their dialects. -/
def languages : List (Text × Dialect) :=
  [("js", javascript), ("jsx", javascript), ("ts", typescript), ("tsx", tsx)]

/-- The dialect of scripts in a language. -/
def ofLanguage? (language : Text) : Option Dialect := languages.lookup language

/-- The dialect of a file by its suffix, in whatever case that is. -/
def ofPath (file : Text) : Except Problem Dialect :=
  let suffix := (Path.ofText file).suffix.lower
  match ofSuffix? suffix with
  | some d => .ok d
  | none => .error { cause := .unsupportedFile suffix, file := some file }

end Dialect

end Phrasebook
