import Phrasebook.Conversion.Component

/-!
# Conversion of files

A file is converted as a component or as a script, as its name says; a caller who names the dialect
has a script. Options that cannot be made normal are the one failure that is not an outcome.

## Main definitions

* `convertFile` — the outcome of converting a file, and the calls of the key generator until then.
-/

namespace Phrasebook

/-- Whether a file is a component by its name. -/
def isComponentFile (file : Text) : Bool := (Path.ofText file).suffix.lower == ".vue"

/-- The options for a component: unless something is said, they are those of its framework. -/
def Options.forComponent (o : Options) : Options :=
  if o.accessor?.isNone && o.framework == "react" then { o with framework := "vue" } else o

/-- The dialect of a script: the one that the caller names, else by its file. -/
def scriptDialect (file : Text) (dialect : Option Text) : Except Failure Text :=
  match filled? dialect with
  | some name => .ok name
  | none => ((Dialect.ofPath file).mapError .problem).map Dialect.name

/-- Convert a script. -/
def Workbench.scriptWork (w : Workbench) (code : Text) (dialect : Option Text) :
    Bookkeeping (Option (Text × List Change)) := do
  let dialect ← .ofExcept (scriptDialect w.file dialect)
  return some (← w.convertScript code dialect {})

/-- The outcome of converting a file, and the calls of the key generator until then. -/
def convertFile (parser : Parser) (code file : Text) (options : Options) (catalogue : Catalogue)
    (dialect : Option Text) (earlier : List KeyRequest) :
    Except Failure (Outcome × List KeyRequest) := do
  let isComponent := dialect.isNone && isComponentFile file
  let (options, warnings) ← (if isComponent then options.forComponent else options).normalize
  let bench : Workbench := ⟨parser, file, options, catalogue⟩
  if isComponent then
    match code.firstSurrogates? 0 with
    | some e => throw (.unencodable e)
    | none => return Bookkeeping.conclude code file warnings earlier (bench.convertComponent code)
  else return Bookkeeping.conclude code file warnings earlier (bench.scriptWork code dialect)

end Phrasebook
