import Phrasebook.Component.Template
import Phrasebook.Conversion.Script

/-!
# Conversion of components

The first template of a component is converted, and then its scripts. If there is a setup script,
the template calls the accessor that the script acquires; otherwise it calls the function that
every template has.

## Main definitions

* `Workbench.convertComponent` — the converted component and its changes, if a block has changed.
-/

namespace Phrasebook

/-- How the blocks of a component are converted. -/
structure ComponentPlan where
  /-- The whole file. -/
  code : Text
  blocks : List Block
  /-- The index of the setup script, if the template can use what it acquires. -/
  setup : Option Nat
  /-- How lookups are called in components. -/
  convention : Convention

/-- The converted contents of some blocks, and the changes. -/
structure Progress where
  /-- The contents by the index of their block. -/
  contents : List (Nat × Text) := []
  changes : List Change := []

namespace ComponentPlan

/-- The plan for the blocks of a file. -/
def make (o : Options) (code : Text) (blocks : List Block) : ComponentPlan :=
  let setup := blocks.findIdx? Block.isSetup
  ⟨code, blocks, if o.accessor.noImport then none else setup, o.convention .component none⟩

/-- The name of the function that the template calls. -/
def callName (p : ComponentPlan) : Text :=
  if p.setup.isSome then p.convention.callName else globalCallName

/-- The blocks with their indices. -/
def indexed (p : ComponentPlan) : List (Nat × Block) := p.blocks.mapIdx fun i b => (i, b)

/-- The template that is converted, and its index. -/
def template? (p : ComponentPlan) : Option (Nat × Block) :=
  p.indexed.find? fun (_, b) =>
    b.name == "template" && b.language?.all fun (language : Text) => language == "html"

/-- The scripts, and their indices. -/
def scripts (p : ComponentPlan) : List (Nat × Block) :=
  p.indexed.filter fun (_, b) => b.name == "script"

/-- Where a script stands: the setup script acquires what the template uses. -/
def place (p : ComponentPlan) (templateUsed : Bool) (index : Nat) (b : Block) : ScriptPlace :=
  let scope := if b.isSetup then Scope.component else .plain
  if templateUsed && p.setup == some index then
    ⟨scope, p.convention.imports, p.convention.acquisition.toList⟩
  else ⟨scope, [], []⟩

end ComponentPlan

/-- The options for a script in which no hook can be called: a function may be given for it. -/
def Options.forScript (o : Options) (b : Block) : Options :=
  match b.isSetup, filled? o.accessor.scriptFunction with
  | false, some function =>
    { o with accessor? := some { o.accessor with noImport := true, globalFunction := some function } }
  | _, _ => o

/-- The dialect of a script. -/
def Block.dialect (file : Text) (b : Block) : Except Failure Dialect :=
  let language := b.language?.getD "js"
  match Dialect.ofLanguage? language with
  | some d => .ok d
  | none => .error (.problem { cause := .unsupportedLanguage language, file := some file })

/-- A change of a block as a change of the whole file, in which the block begins at an offset. -/
def Change.rebase (code : Text) (offset : Nat) (c : Change) : Change :=
  .make code c.file ((c.start.getD 0).toNat + offset) ((c.stop.getD 0).toNat + offset) c.replacement

namespace Workbench

/-- Convert the template of a component. -/
def convertTemplate (w : Workbench) (p : ComponentPlan) : Bookkeeping Progress := do
  match p.template? with
  | none => return {}
  | some (index, b) =>
    let extractor ← .ofExcept (w.extractor p.code)
    let (output, changes) ← TemplateBlock.convert ⟨extractor, b.start, b.content, p.callName⟩
    if changes.isEmpty then return {}
    return ⟨[(index, output)], changes⟩

/-- Convert the scripts of a component, one after the other. -/
def convertScripts (w : Workbench) (p : ComponentPlan) (templateUsed : Bool) :
    List (Nat × Block) → Bookkeeping Progress
  | [] => return {}
  | (index, b) :: rest => do
    let dialect ← .ofExcept (b.dialect w.file)
    let bench := { w with options := w.options.forScript b }
    let (output, changes) ←
      bench.convertScript b.content dialect.name (p.place templateUsed index b)
    let contents := if output == b.content then [] else [(index, output)]
    let others ← w.convertScripts p templateUsed rest
    return ⟨contents ++ others.contents, changes.map (Change.rebase p.code b.start) ++ others.changes⟩

/-- A file with the contents of some blocks replaced. -/
def assemble (p : ComponentPlan) (contents : List (Nat × Text)) : Text :=
  replaceContents p.code (contents.filterMap fun (index, content) =>
    p.blocks[index]?.map fun b => (b, content))

/-- The converted component and its changes; nothing if no block has changed. -/
def convertComponent (w : Workbench) (code : Text) :
    Bookkeeping (Option (Text × List Change)) := do
  let blocks ← .ofExcept ((splitBlocks code).mapError Failure.problem)
  let plan := ComponentPlan.make w.options code blocks
  let template ← w.convertTemplate plan
  let scripts ← w.convertScripts plan (!template.changes.isEmpty) plan.scripts
  let contents := template.contents ++ scripts.contents
  if contents.isEmpty then return none
  return some (assemble plan contents, template.changes ++ scripts.changes)

end Workbench

end Phrasebook
