import Phrasebook.Options.Basic
import Phrasebook.Options.CustomImport

/-!
# Normal options

Options that cannot be used as they are fall back to a default, and every such step is told in a
warning. Only a namespace that is no identifier is beyond repair.

## Main definitions

* `Options.normalize` — normal options, and the warnings about what had to change.
-/

namespace Phrasebook

/-- A warning about an option. -/
structure Warning where
  code : Text
  option : Text
  message : Text
  deriving DecidableEq

/-- A warning as it is shown. -/
def Warning.text (w : Warning) : Text := "[" ++ w.code ++ "] " ++ w.option ++ ": " ++ w.message

namespace Options

/-- The warning about a value that is not known. -/
def unknownValue (option what value fallback : Text) : Warning :=
  ⟨"CONFIG005", option,
    "unknown " ++ what ++ " " ++ value.quoted ++ "; using '" ++ fallback ++ "'"⟩

/-- The framework of the options. -/
def normalFramework (o : Options) : Framework × List Warning :=
  match Framework.ofName? o.framework with
  | some f => (f, [])
  | none => (.react, [unknownValue "framework" "framework" o.framework "react"])

/-- An option in an older spelling: its name there and now, its value, and the value now. -/
structure OlderOption where
  older : Text
  now : Text
  /-- The value in the older spelling. -/
  value : Option Text
  get : AccessorOptions → Text
  set : AccessorOptions → Text → AccessorOptions

/-- The options in an older spelling. -/
def olderOptions (o : Options) : List OlderOption :=
  [⟨"translation_method", "name", o.olderName, (·.name), fun a v => { a with name := v }⟩,
    ⟨"hook_name", "import_name", o.olderHook, (·.hook), fun a v => { a with hook := v }⟩,
    ⟨"hook_import", "source", o.olderSource, (·.source), fun a v => { a with source := v }⟩]

/-- Heed an option in an older spelling, unless the accessor is given in the spelling of now. -/
def heedOlder (explicit : Option AccessorOptions) (state : AccessorOptions × List Warning)
    (option : OlderOption) : AccessorOptions × List Warning :=
  match option.value, explicit with
  | none, _ => state
  | some value, none =>
    (option.set state.1 value, state.2 ++
      [⟨"CONFIG004", option.older, "deprecated; use i18n_import." ++ option.now ++ " instead"⟩])
  | some value, some given =>
    if option.get given == value then state
    else
      (state.1, state.2 ++
        [⟨"CONFIG002", option.older, "conflicts with i18n_import." ++ option.now ++ "="
          ++ (option.get given).quoted ++ "; i18n_import wins"⟩])

/-- An accessor that calls a global function has one. -/
def withGlobalFunction (a : AccessorOptions) : AccessorOptions :=
  if a.noImport && a.globalFunction.isNone then { a with globalFunction := some a.name } else a

/-- The accessor of the options. -/
def normalAccessor (o : Options) (f : Framework) : AccessorOptions × List Warning :=
  let (a, warnings) := o.olderOptions.foldl (heedOlder o.accessor?) (o.accessor?.getD f.accessor, [])
  (withGlobalFunction a, warnings)

/-- The pattern of the options; some flaws are failures. -/
def normalPattern (o : Options) : Except Failure (Text × List Warning) :=
  match o.delimiter with
  | .ok _ => .ok (o.pattern, [])
  | .error e =>
    if e.flaw.isFatal then .error (.badPattern e)
    else
      .ok (Delimiter.defaultSource, [⟨"CONFIG003", "pattern",
        "invalid delimiter pattern (" ++ e.message ++ "); using " ++ Delimiter.defaultSource.quoted⟩])

/-- The kind of comments. -/
def normalCommentType (o : Options) : Text × List Warning :=
  if o.commentType == "block" || o.commentType == "line" then (o.commentType, [])
  else
    ("block", [unknownValue "extracted_comment_type" "comment type" o.commentType "block"])

/-- How plain code imports the accessor. -/
def normalImportType (p : PlainOptions) : PlainOptions × List Warning :=
  if p.importType == "named" || p.importType == "default" || p.importType == "namespace" then (p, [])
  else
    ({ p with importType := "named" },
      [unknownValue "plain_import.import_type" "import type" p.importType "named"])

/-- The import statement of the caller, if it can be used. -/
def normalCustomImport (p : PlainOptions) : PlainOptions × List Warning :=
  match p.customImport with
  | none => (p, [])
  | some statement =>
    match CustomImport.parse? statement with
    | some _ => (p, [])
    | none =>
      ({ p with customImport := none },
        [⟨"CONFIG005", "plain_import.custom_import",
          "unsupported import statement " ++ statement.quoted ++ "; ignoring it"⟩])

/-- How plain code gets the accessor. -/
def normalPlain (p : PlainOptions) (f : Framework) : Except Failure (PlainOptions × List Warning) :=
  let (p, warnings) := normalImportType p
  if p.importType == "namespace" && !isIdentifierLine p.namespaceName then
    .error (.problem { cause := .notIdentifier p.namespaceName })
  else
    let (p, more) := normalCustomImport p
    let p := if p.source.isNone then { p with source := f.plainSource? } else p
    .ok (p, warnings ++ more)

/-- Normal options, and the warnings about what had to change. -/
def normalize (o : Options) : Except Failure (Options × List Warning) := do
  let (framework, frameworkWarnings) := o.normalFramework
  let (accessor, accessorWarnings) := o.normalAccessor framework
  let (pattern, patternWarnings) ← o.normalPattern
  let (commentType, commentWarnings) := o.normalCommentType
  let (plain, plainWarnings) ← normalPlain o.plain framework
  return ({ o with
      framework := framework.name, accessor? := some accessor, plain := plain, pattern := pattern,
      commentType := commentType },
    frameworkWarnings ++ accessorWarnings ++ patternWarnings ++ commentWarnings ++ plainWarnings)

end Options

end Phrasebook
