import Phrasebook.Options.Basic

/-!
# Options from settings

Options can be read from a JSON object. Its names may be written in camel case or with underscores;
a member without a value is passed over, and the first member that is not known, or has a value of
another type, is reported.

## Main definitions

* `Options.ofSettings` — the options that settings describe.
-/

namespace Phrasebook

/-- A name with an underscore before every capital, the first character apart, in lower case. -/
def underscored (name : Text) : Text :=
  match name with
  | [] => []
  | c :: rest =>
    Text.lower (c :: rest.flatMap fun d => if d.isAsciiUpper then ['_', d] else [d])

/-- The types of settings. -/
inductive SettingType where
  | text
  | truth
  deriving DecidableEq

/-- The word for a type. -/
def SettingType.word : SettingType → Text
  | text => "str"
  | truth => "bool"

/-- The value of a setting. -/
inductive SettingValue where
  | text (t : Text)
  | truth (b : Bool)
  deriving DecidableEq

/-- The settings of a section by their names. -/
abbrev Section := List (Text × SettingValue)

namespace Section

/-- The text of a setting. -/
def text? (s : Section) (name : Text) : Option Text :=
  match s.lookup name with
  | some (.text t) => some t
  | _ => none

/-- The truth value of a setting. -/
def truth? (s : Section) (name : Text) : Option Bool :=
  match s.lookup name with
  | some (.truth b) => some b
  | _ => none

end Section

/-- A value as one of a type. -/
def settingValue? (type : SettingType) (value : Json) : Option SettingValue :=
  match type, value with
  | .text, .text t => some (.text t)
  | .truth, .bool b => some (.truth b)
  | _, _ => none

/-- Add a member of an object to the settings of a section. -/
def pickSetting (allowed : List (Text × SettingType)) (inSection : Text) (picked : Section)
    (member : Text × Json) : Except Problem Section :=
  let name := underscored member.1
  match allowed.lookup name with
  | none => .error { cause := .unknownSetting member.1 inSection }
  | some type =>
    match member.2 with
    | .null => .ok picked
    | value =>
      match settingValue? type value with
      | some v => .ok (put picked name v)
      | none => .error { cause := .wrongSettingType member.1 inSection type.word }

/-- The settings of a section. -/
def pickSettings (allowed : List (Text × SettingType)) (inSection : Text)
    (members : List (Text × Json)) : Except Problem Section :=
  members.foldlM (pickSetting allowed inSection) []

/-- The settings outside of any section. -/
def topSettings : List (Text × SettingType) :=
  [("pattern", .text), ("framework", .text), ("append_extracted_comment", .truth),
    ("extracted_comment_type", .text), ("hook_prefix", .text), ("translation_method", .text),
    ("hook_name", .text), ("hook_import", .text)]

/-- The settings of the accessor. -/
def accessorSettings : List (Text × SettingType) :=
  [("name", .text), ("import_name", .text), ("source", .text), ("alias", .text),
    ("destructured", .truth), ("no_import", .truth), ("global_function", .text),
    ("script_function", .text)]

/-- The settings of the accessor of plain code. -/
def plainSettings : List (Text × SettingType) :=
  [("function_name", .text), ("import_type", .text), ("source", .text), ("namespace", .text),
    ("custom_import", .text)]

/-- The accessor of a framework, as far as the settings say nothing else. -/
def AccessorOptions.ofSection (base : AccessorOptions) (s : Section) : AccessorOptions :=
  { name := (s.text? "name").getD base.name
    hook := (s.text? "import_name").getD base.hook
    source := (s.text? "source").getD base.source
    newName := (s.text? "alias").or base.newName
    destructured := (s.truth? "destructured").getD base.destructured
    noImport := (s.truth? "no_import").getD base.noImport
    globalFunction := (s.text? "global_function").or base.globalFunction
    scriptFunction := (s.text? "script_function").or base.scriptFunction }

/-- The accessor of plain code that settings describe. -/
def PlainOptions.ofSection (s : Section) : PlainOptions :=
  let base : PlainOptions := {}
  { functionName := s.text? "function_name"
    importType := (s.text? "import_type").getD base.importType
    source := s.text? "source"
    namespaceName := (s.text? "namespace").getD base.namespaceName
    customImport := s.text? "custom_import" }

/-- The members of a section; none if it is missing or has no value. -/
def sectionMembers? (members : List (Text × Json)) (name : Text) :
    Except Problem (Option (List (Text × Json))) :=
  match members.lookup name with
  | none | some .null => .ok none
  | some (.object inner) => .ok (some inner)
  | some _ => .error { cause := .sectionNotObject name }

/-- The options that settings describe. -/
def Options.ofSettings (settings : Json) : Except Problem Options := do
  match settings with
  | .object members =>
    let top ← pickSettings topSettings "config"
      (members.filter fun m => m.1 != "i18nImport" && m.1 != "plainImport")
    let base : Options := {}
    let framework := (top.text? "framework").getD base.framework
    let accessor ← do
      match ← sectionMembers? members "i18nImport" with
      | none => pure none
      | some inner =>
        let s ← pickSettings accessorSettings "i18nImport" inner
        pure (some (AccessorOptions.ofSection
          ((Framework.ofName? framework).getD .react).accessor s))
    let plain ← do
      match ← sectionMembers? members "plainImport" with
      | none => pure base.plain
      | some inner =>
        pure (PlainOptions.ofSection (← pickSettings plainSettings "plainImport" inner))
    return { base with
      pattern := (top.text? "pattern").getD base.pattern
      framework := framework
      accessor? := accessor
      plain := plain
      appendComment := (top.truth? "append_extracted_comment").getD base.appendComment
      commentType := (top.text? "extracted_comment_type").getD base.commentType
      hookStart := (top.text? "hook_prefix").getD base.hookStart
      olderName := top.text? "translation_method"
      olderHook := top.text? "hook_name"
      olderSource := top.text? "hook_import" }
  | _ => .error { cause := .settingsNotObject }

end Phrasebook
