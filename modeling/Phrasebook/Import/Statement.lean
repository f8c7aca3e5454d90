import Phrasebook.Accessor.Convention
import Phrasebook.Tree.Node

/-!
# Import statements of a file

What the import statements of a file bind, and whether a requirement is met by them. An import of
types alone binds nothing that can be called.

## Main definitions

* `scanImports` — the import statements of a file.
* `hasImport`, `hasAcquisition` — whether what is needed is there already.
-/

namespace Phrasebook

/-- An import statement of a file. -/
structure ImportStatement where
  node : Node
  source : Text
  quote : Text
  semicolon : Bool
  typeOnly : Bool
  /-- What it binds, as it is written. -/
  clause : Option Node := none
  /-- The name of the default export. -/
  default : Option Text := none
  /-- The name of the whole module. -/
  star : Option Text := none
  /-- The names that are imported, with those under which they are known. -/
  named : List (Text × Text) := []
  braces : Option Node := none
  /-- The last of them, as it is written. -/
  lastSpecifier : Option Node := none

namespace ImportStatement

/-- Whether a node holds the keyword for types. -/
def marksType (n : Node) : Bool := n.children.any fun c => c.kind == "type"

/-- Add what a specifier between braces binds. -/
def addSpecifier (t : Text) (s : ImportStatement) (specifier : Node) : ImportStatement :=
  if specifier.kind != "import_specifier" || marksType specifier then s
  else
    match specifier.child? "name" with
    | none => s
    | some name =>
      let imported := Text.trimWhile (fun c => c == '\'' || c == '"') (name.text t)
      let known := ((specifier.child? "alias").map fun newName => newName.text t).getD imported
      { s with named := put s.named imported known, lastSpecifier := some specifier }

/-- Add what a part of the clause binds. -/
def addPart (t : Text) (s : ImportStatement) (part : Node) : ImportStatement :=
  match part.kind with
  | "identifier" => { s with default := some (part.text t) }
  | "namespace_import" =>
    match (part.namedChildren.filter fun c => c.kind == "identifier").getLast? with
    | some name => { s with star := some (name.text t) }
    | none => s
  | "named_imports" => part.namedChildren.foldl (addSpecifier t) { s with braces := some part }
  | _ => s

/-- The import statement that a node is. -/
def ofNode? (t : Text) (n : Node) : Option ImportStatement :=
  if n.kind != "import_statement" then none
  else
    (n.child? "source").map fun source =>
      let literal := source.text t
      let clause := (n.children.filter fun c => c.kind == "import_clause").getLast?
      let bare : ImportStatement :=
        { node := n, source := (literal.drop 1).dropLast, quote := literal.take 1
          semicolon := (n.text t).trimRight.endsWith ";", typeOnly := marksType n, clause := clause }
      (clause.map Node.children).getD [] |>.foldl (addPart t) bare

/-- Whether a statement binds the name of a requirement in its way. -/
def bindsLocal (s : ImportStatement) (r : ImportRequirement) : Bool :=
  match r.kind with
  | .default => s.default == some r.localName
  | .star => s.star == some r.localName
  | .named | .other _ => s.named.lookup r.name == some r.localName

/-- Whether a statement imports what a requirement asks for, under whatever name. -/
def provides (s : ImportStatement) (r : ImportRequirement) : Bool :=
  match r.kind with
  | .default => s.default.isSome
  | .star => s.star.isSome
  | .named => (s.named.lookup r.name).isSome
  | .other _ => false

/-- Whether a statement meets a requirement. One that comes with a statement of its own is met only
by the very name. -/
def meets (s : ImportStatement) (r : ImportRequirement) : Bool :=
  s.source == r.source && !s.typeOnly && if r.statement.isSome then s.bindsLocal r else s.provides r

end ImportStatement

/-- The import statements of a file. -/
def scanImports (t : Text) (root : Node) : List ImportStatement :=
  root.children.filterMap (ImportStatement.ofNode? t)

/-- Whether a requirement is met. -/
def hasImport (statements : List ImportStatement) (r : ImportRequirement) : Bool :=
  statements.any fun s => s.meets r

/-- The name under which an import is known, or would be. -/
def localBinding (statements : List ImportStatement) (source name : Text) (newName : Option Text) :
    Text :=
  let known := statements.findSome? fun s =>
    if s.source == source && !s.typeOnly then s.named.lookup name else none
  known.getD ((filled? newName).getD name)

/-- Whether a statement is a directive. -/
def Node.isDirective (n : Node) : Bool :=
  n.kind == "expression_statement" &&
    match n.contents with
    | [inner] => inner.kind == "string"
    | _ => false

/-- Whether a statement belongs to the opening of a file. -/
def Node.opensFile (n : Node) : Bool :=
  n.kind == "hash_bang_line" || n.kind == "import_statement" || n.isDirective

/-- Where the directives and imports end that open a file; its beginning if there are none. -/
def leadingEnd (root : Node) : Nat :=
  let opening := (root.children.filter fun n => n.kind != "comment").takeWhile Node.opensFile
  (opening.getLast?.map Node.stop).getD 0

/-- Whether a declared variable is the result of a call of a function. -/
def Node.isCallOf (t function : Text) (declarator : Node) : Bool :=
  declarator.kind == "variable_declarator" &&
    ((declarator.child? "value").bind Node.unwrap).any fun value =>
      value.kind == "call_expression" && value.calls t [function]

/-- Whether a statement declares variables. -/
def Node.isDeclaration (n : Node) : Bool :=
  n.kind == "lexical_declaration" || n.kind == "variable_declaration"

/-- Whether a hook is called among the declarations of a block. -/
def hasAcquisition (t : Text) (block : Node) (hook : Text) : Bool :=
  (block.contents.filter Node.isDeclaration).any fun statement =>
    statement.namedChildren.any (Node.isCallOf t hook)

end Phrasebook
