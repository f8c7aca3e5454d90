import Phrasebook.Edit.Insertion
import Phrasebook.Import.Statement
import Phrasebook.Tree.Parse

/-!
# Bringing accessors into scope

The imports that calls need are merged into statements of the same module, or written anew behind
the opening of the file. Accessors that come from a hook are acquired in the function that owns
the calls, or behind the imports.

## Main definitions

* `SourceFile.planImports`, `SourceFile.planAcquisitions` — what has to be inserted.
* `ensureImports` — a text in which all that is needed is in scope.
-/

namespace Phrasebook

/-- A text to be inserted. -/
structure Placement where
  position : Nat
  text : Text
  /-- Whether it comes behind all imports. -/
  behindImports : Bool := false
  deriving DecidableEq

/-- The order of what comes behind all imports. -/
def orderBehindImports : Int := 1000

/-- Placements as insertions: at one place, what was planned first comes first. -/
def insertionsOf (placements : List Placement) : List Insertion :=
  placements.mapIdx fun i p =>
    ⟨p.position, p.text, if p.behindImports then orderBehindImports else i + 1⟩

/-- A file whose imports are known. -/
structure SourceFile where
  text : Text
  root : Node
  imports : List ImportStatement

/-- How imports are written: the quote, and what ends a statement. -/
structure ImportStyle where
  quote : Text := "\""
  /-- What ends a statement. -/
  semicolon : Text := ";"

/-- The specifier of a requirement. -/
def ImportRequirement.specifier (r : ImportRequirement) : Text :=
  match filled? r.newName with
  | some newName => if newName == r.name then r.name else r.name ++ " as " ++ newName
  | none => r.name

/-- The specifiers of requirements. -/
def specifiers (requirements : List ImportRequirement) : Text :=
  Text.join ", " (requirements.map ImportRequirement.specifier)

/-- A text in braces with blanks. -/
def inBraces (t : Text) : Text := "\x7b " ++ t ++ " \x7d"

/-- The statements that import what is required of a module. -/
def importStatements (style : ImportStyle) (source : Text) (required : List ImportRequirement) :
    List Text :=
  let ending : Text := " from " ++ style.quote ++ source ++ style.quote ++ style.semicolon
  let default := (required.find? fun r => r.kind == .default).map ImportRequirement.localName
  let named := required.filter fun r => r.kind == .named
  let bindings := default.toList ++ if named.isEmpty then [] else [inBraces (specifiers named)]
  let stars := required.filter fun r => r.kind == .star
  (if bindings.isEmpty then [] else ["import " ++ Text.join ", " bindings ++ ending])
    ++ stars.map fun r => "import * as " ++ r.localName ++ ending

/-- Add a requirement to those of its module. -/
def addMissing (missing : List (Text × List ImportRequirement)) (r : ImportRequirement) :
    List (Text × List ImportRequirement) :=
  let bucket := (missing.lookup r.source).getD []
  put missing r.source (if bucket.contains r then bucket else bucket ++ [r])

/-- Add a text unless it is there. -/
def addOnce (texts : List Text) (t : Text) : List Text :=
  if texts.contains t then texts else texts ++ [t]

/-- The statement that acquires an accessor from a hook. -/
def Acquisition.statement (a : Acquisition) (hook : Text) : Text :=
  let target := if a.destructured then inBraces a.accessorName else a.accessorName
  "const " ++ target ++ " = " ++ hook ++ "();"

namespace SourceFile

/-- The file of a text and its tree. -/
def ofTree (t : Text) (root : Node) : SourceFile := ⟨t, root, scanImports t root⟩

/-- A statement behind the opening of the file. -/
def atTop (f : SourceFile) (statement : Text) (behindImports : Bool) : Placement :=
  let newline := f.text.newline
  let position := leadingEnd f.root
  if 0 < position then ⟨position, newline ++ statement, behindImports⟩
  else if f.text.startsWith newline then ⟨newline.length, statement ++ newline, behindImports⟩
  else ⟨0, statement ++ newline, behindImports⟩

/-- How the last import of the file is written. -/
def style (f : SourceFile) : ImportStyle :=
  match (f.imports.filter fun (s : ImportStatement) => s.quote == "'" || s.quote == "\"").getLast? with
  | some s => ⟨s.quote, if s.semicolon then ";" else []⟩
  | none => {}

/-- The import statement that names of a module can be added to. -/
def mergeTarget? (f : SourceFile) (source : Text) : Option ImportStatement :=
  f.imports.find? fun s =>
    s.source == source && !s.typeOnly && s.star.isNone && s.clause.isSome

/-- Where and how names are added to an import statement. -/
def mergeNamed (target : ImportStatement) (named : List ImportRequirement) : List Placement :=
  let names := specifiers named
  match named, target.lastSpecifier, target.braces, target.default, target.clause with
  | [], _, _, _, _ => []
  | _, some last, _, _, _ => [⟨last.stop, ", " ++ names, false⟩]
  | _, none, some braces, _, _ => [⟨braces.start + 1, " " ++ names ++ " ", false⟩]
  | _, none, none, some _, some clause => [⟨clause.stop, ", " ++ inBraces names, false⟩]
  | _, _, _, _, _ => []

/-- Where and how a default import is added to an import statement. -/
def mergeDefault (target : ImportStatement) (default : Option ImportRequirement) : List Placement :=
  match default, target.default, target.clause with
  | some r, none, some clause => [⟨clause.start, r.localName ++ ", ", false⟩]
  | _, _, _ => []

/-- Merge requirements into an import statement: the insertions, and what is left. -/
def mergeInto (target : ImportStatement) (wanted : List ImportRequirement) :
    List Placement × List ImportRequirement :=
  let named := mergeNamed target (wanted.filter fun r => r.kind == .named)
  let rest := if named.isEmpty then wanted else wanted.filter fun r => r.kind != .named
  let default := rest.find? fun r => r.kind == .default
  let added := mergeDefault target default
  let rest := if added.isEmpty then rest else rest.eraseP fun r => r.kind == .default
  (named ++ added, rest)

/-- The insertions for what is required of a module. -/
def planModule (f : SourceFile) (source : Text) (wanted : List ImportRequirement) :
    List Placement :=
  let (merged, rest) :=
    match f.mergeTarget? source with
    | some target => mergeInto target wanted
    | none => ([], wanted)
  merged ++ (importStatements f.style source rest).map fun s => f.atTop s false

/-- The requirements that are not met. -/
def unmet (f : SourceFile) (required : List ImportRequirement) : List ImportRequirement :=
  required.filter fun r => !hasImport f.imports r

/-- The insertions for imports that are not there. Statements of the caller come first. -/
def planImports (f : SourceFile) (required : List ImportRequirement) : List Placement :=
  let unmet := f.unmet required
  let verbatim := (unmet.filterMap ImportRequirement.statement).foldl addOnce []
  let missing := (unmet.filter fun r => r.statement.isNone).foldl addMissing []
  (verbatim.map fun s => f.atTop s false) ++ missing.flatMap fun (source, wanted) =>
    f.planModule source wanted

/-- The function that begins at an offset. -/
def functionAt? (f : SourceFile) (offset : Int) : Option Node :=
  (f.root.cursors.find? fun c => c.node.isFunction && (c.node.start : Int) == offset).map Cursor.node

/-- Turn an expression body into a block that acquires the accessor first. -/
def openExpression (newline base inner statement : Text) (body : Node) : List Placement :=
  [⟨body.start, "\x7b" ++ newline ++ inner ++ statement ++ newline ++ inner ++ "return ", false⟩,
    ⟨body.stop, ";" ++ newline ++ base ++ "\x7d", false⟩]

/-- What is inserted at the beginning of a block so that it acquires the accessor first. -/
def openBlock (t newline base inner statement : Text) (body : Node) : Text :=
  match body.contents with
  | first :: _ =>
    let sameLine := !(t.slice body.start first.start).any fun (c : CodePoint) => c == '\n'
    newline ++ (if sameLine then inner else t.lineIndent first.start) ++ statement
  | [] =>
    let broken := (t.slice (body.start + 1) (body.stop - 1)).any fun (c : CodePoint) => c == '\n'
    newline ++ inner ++ statement ++ if broken then [] else newline ++ base

/-- The insertions that acquire an accessor in a function. -/
def planFunction (f : SourceFile) (fn : Node) (statement hook : Text) : List Placement :=
  let base := f.text.lineIndent fn.start
  let inner := base ++ if base.any fun (c : CodePoint) => c == '\t' then ("\t" : Text) else "  "
  let newline := f.text.newline
  match fn.child? "body" with
  | none => []
  | some body =>
    if body.kind != "statement_block" then openExpression newline base inner statement body
    else if hasAcquisition f.text body hook then []
    else [⟨body.start + 1, openBlock f.text newline base inner statement body, false⟩]

/-- The insertions that acquire an accessor. -/
def planAcquisition (f : SourceFile) (a : Acquisition) : Except Problem (List Placement) :=
  let hook := localBinding f.imports a.hookSource a.hookName a.hookAlias
  let statement := a.statement hook
  match a.ownerStart with
  | none => .ok (if hasAcquisition f.text f.root hook then [] else [f.atTop statement true])
  | some offset =>
    match f.functionAt? offset with
    | some fn => .ok (f.planFunction fn statement hook)
    | none =>
      let p := f.text.position offset
      .error (.placed .ownerNotFound none p.line p.column)

/-- The insertions that acquire accessors. -/
def planAcquisitions (f : SourceFile) : List Acquisition → Except Problem (List Placement)
  | [] => .ok []
  | a :: rest => do
    let here ← f.planAcquisition a
    let others ← f.planAcquisitions rest
    return here ++ others

end SourceFile

/-- A text in which all imports and accessors that are needed are in scope. -/
def ensureImports (parser : Parser) (t : Text) (imports : List ImportRequirement)
    (acquisitions : List Acquisition) (dialect file : Text) : Except Failure Text := do
  if imports.isEmpty && acquisitions.isEmpty then return t
  let f := SourceFile.ofTree t (← parse parser t dialect file)
  let acquired ← (f.planAcquisitions acquisitions).mapError Failure.problem
  (applyInsertions t (insertionsOf (f.planImports imports ++ acquired))).mapError Failure.problem

end Phrasebook
