import Phrasebook.Message.Ledger

/-!
# Options

How phrases are marked, how the accessor that looks messages up is called and where it comes from,
and what else a caller can choose. The texts here are as the caller gave them; `normalize` turns
them into something that can be relied on.

## Main definitions

* `Options`, with `AccessorOptions` and `PlainOptions` — what a caller can choose.
* `Framework` — the frameworks whose conventions are known.
-/

namespace Phrasebook

/-- The value of an optional text that is not empty. -/
def filled? (t : Option Text) : Option Text := t.filter fun t => !t.isEmpty

/-- How the accessor is called and which hook gives it. -/
structure AccessorOptions where
  name : Text := "t"
  hook : Text := "useTranslation"
  source : Text := "react-i18next"
  newName : Option Text := none
  /-- Whether the hook gives an object that holds the accessor. -/
  destructured : Bool := true
  /-- Whether nothing is imported and a global function is called. -/
  noImport : Bool := false
  globalFunction : Option Text := none
  /-- The function that component scripts call in which no hook can be called. -/
  scriptFunction : Option Text := none
  deriving DecidableEq

/-- How code outside of components and hooks gets the accessor. -/
structure PlainOptions where
  /-- The name of the function; that of the accessor if nothing is said. -/
  functionName : Option Text := none
  /-- How it is imported: `named`, `default` or `namespace`. -/
  importType : Text := "named"
  source : Option Text := none
  namespaceName : Text := "i18n"
  /-- An import statement to be used as it is. -/
  customImport : Option Text := none
  deriving DecidableEq

/-- What a caller can choose. -/
structure Options where
  pattern : Text := Delimiter.defaultSource
  /-- The characters that the pattern can name. -/
  characterNames : CharacterNames := fun _ => none
  framework : Text := "react"
  accessor? : Option AccessorOptions := none
  plain : PlainOptions := {}
  /-- How a call is written, from its name, the key and the message text. -/
  writeCall : Option (Text → Key → Text → Text) := none
  /-- Why a call is not written in that way, if it is not. -/
  refuseCall : Text → Key → Text → Option Text := fun _ _ _ => none
  keys : KeyPolicy := {}
  /-- Whether the message text follows a call as a comment. -/
  appendComment : Bool := false
  /-- The kind of that comment: `block` or `line`. -/
  commentType : Text := "block"
  /-- What the names of hooks begin with. -/
  hookStart : Text := "use"
  olderName : Option Text := none
  olderHook : Option Text := none
  olderSource : Option Text := none

/-- The accessor of the options. -/
def Options.accessor (o : Options) : AccessorOptions := o.accessor?.getD {}

/-- The delimiter of the options. -/
def Options.delimiter (o : Options) : Except PatternError Delimiter :=
  Delimiter.ofText o.pattern o.characterNames

/-- The frameworks whose conventions are known. -/
inductive Framework where
  | react
  | vue
  deriving DecidableEq

namespace Framework

/-- The name of a framework. -/
def name : Framework → Text
  | react => "react"
  | vue => "vue"

/-- The framework with a name. -/
def ofName? (t : Text) : Option Framework := [react, vue].find? fun f => f.name == t

/-- The accessor of a framework. -/
def accessor : Framework → AccessorOptions
  | react => {}
  | vue => { hook := "useI18n", source := "vue-i18n" }

/-- The module that exports an accessor for plain code, if a framework has one. -/
def plainSource? : Framework → Option Text
  | react => some "i18next"
  | vue => none

end Framework

end Phrasebook
