import Phrasebook.Options.Basic
import Phrasebook.Options.CustomImport
import Phrasebook.Sorting

/-!
# Conventions

How a lookup is called at a place, and what the call needs: imports, and possibly an accessor that
is acquired from a hook in the function around it.

## Main definitions

* `Convention` — how a lookup is called, with the imports and the accessor that it needs.
* `Options.convention` — that of a scope.
-/

namespace Phrasebook

/-- The role of the code around a phrase. -/
inductive Scope where
  /-- A function that returns markup. -/
  | component
  /-- A function that is a hook by its name. -/
  | hook
  /-- Any other code. -/
  | plain
  deriving DecidableEq

namespace Scope

/-- The name of a scope. -/
def name : Scope → Text
  | component => "component"
  | hook => "hook"
  | plain => "plain"

/-- The scope with a name. -/
def ofName (t : Text) : Except Failure Scope :=
  match [component, hook, plain].find? fun s => s.name == t with
  | some s => .ok s
  | none => .error (.unknownScope t)

end Scope

/-- An import that a call needs. -/
structure ImportRequirement where
  /-- The module. -/
  source : Text
  name : Text
  kind : ImportKind := .named
  newName : Option Text := none
  /-- A statement to be used as it is. -/
  statement : Option Text := none
  deriving DecidableEq

/-- The name under which an import is to be known. -/
def ImportRequirement.localName (r : ImportRequirement) : Text := (filled? r.newName).getD r.name

/-- An accessor that is to be acquired from a hook. -/
structure Acquisition where
  /-- Where the function begins in which it is acquired; none for the module. -/
  ownerStart : Option Int
  accessorName : Text
  hookSource : Text
  hookName : Text
  hookAlias : Option Text := none
  /-- Whether the hook gives an object that holds the accessor. -/
  destructured : Bool := true
  deriving DecidableEq

/-- How a lookup is called, and what the call needs. -/
structure Convention where
  callName : Text
  imports : List ImportRequirement := []
  acquisition : Option Acquisition := none
  deriving DecidableEq

namespace Options

/-- Call the accessor that the hook gives in the function that begins at `ownerStart`. -/
def hookConvention (o : Options) (ownerStart : Option Int) : Convention :=
  let a := o.accessor
  { callName := a.name
    imports := [{ source := a.source, name := a.hook, newName := a.newName }]
    acquisition := some ⟨ownerStart, a.name, a.source, a.hook, a.newName, a.destructured⟩ }

/-- The import statement of the caller, if there is one and it can be read. -/
def customImport? (o : Options) : Option CustomImport :=
  (filled? o.plain.customImport).bind CustomImport.parse?

/-- Call what the caller's own import statement binds. -/
def customConvention (c : CustomImport) (functionName : Text) : Convention :=
  { callName := if c.kind == .star then c.localName ++ "." ++ functionName else c.localName
    imports := [⟨c.source, c.name, c.kind, c.newName, some c.statement⟩] }

/-- Call what is imported from the module `source`. -/
def importConvention (plain : PlainOptions) (source functionName : Text) : Convention :=
  if plain.importType == "namespace" then
    { callName := plain.namespaceName ++ "." ++ functionName
      imports := [{ source := source, name := plain.namespaceName, kind := .star }] }
  else
    let kind := if plain.importType == "default" then ImportKind.default else .named
    { callName := functionName, imports := [{ source := source, name := functionName, kind := kind }] }

/-- How plain code calls a lookup: by the caller's own import, else by the module of plain code,
else by the hook. -/
def plainConvention (o : Options) (ownerStart : Option Int) : Convention :=
  let functionName := (filled? o.plain.functionName).getD o.accessor.name
  match o.customImport?, o.plain.source with
  | some c, _ => customConvention c functionName
  | none, none => o.hookConvention ownerStart
  | none, some source => importConvention o.plain source functionName

/-- How a lookup is called in a scope. -/
def convention (o : Options) (scope : Scope) (ownerStart : Option Int) : Convention :=
  if o.accessor.noImport then
    { callName := (filled? o.accessor.globalFunction).getD o.accessor.name }
  else
    match scope with
    | .component | .hook => o.hookConvention ownerStart
    | .plain => o.plainConvention ownerStart

/-- Every name under which lookups are called, in order and each once. -/
def callNames (o : Options) : List Text :=
  let byScope := [Scope.component, .hook, .plain].map fun s => (o.convention s none).callName
  let all := byScope ++ [o.accessor.name] ++ (filled? o.accessor.globalFunction).toList
  sortStable Text.ble all.eraseDups

end Options

end Phrasebook
