import Phrasebook.Accessor.Convention
import Phrasebook.Tree.Node

/-!
# Classification of code

The role of a piece of code is that of the function around it: a function that returns markup is a
component, one whose name says so is a hook, and in any other function the next one outwards
decides. Answers are remembered for every function, since many phrases share one.

## Main definitions

* `Node.returnsMarkup` — whether a function returns markup, by a search with a stack.
* `Surveyor.classify` — the role of a piece of code, and the answers that are known then.
-/

namespace Phrasebook

namespace Node

/-- What a search does at a node. -/
inductive Look where
  /-- The node is what it is for. -/
  | found
  /-- It goes past the node. -/
  | pass
  /-- It goes on with the children of the node as well. -/
  | enter
  deriving DecidableEq

/-- A search with a stack, of which the first node is looked at next. The children of a node that is
gone into come on top of it, the last of them first. -/
def searchFor (look : Node → Look) : Nat → List Node → Bool
  | rounds + 1, n :: rest =>
    match look n with
    | .found => true
    | .pass => searchFor look rounds rest
    | .enter => searchFor look rounds (n.children.reverse ++ rest)
  | _, _ => false

/-- A search that begins with some nodes, the last of them first. A round takes a node away, so there
are at most as many rounds as nodes. -/
def search (look : Node → Look) (nodes : List Node) : Bool :=
  searchFor look (sizeAll nodes.reverse) nodes.reverse

/-- A search for markup goes past functions. -/
def lookForMarkup (n : Node) : Look :=
  if n.isMarkup then .found else if n.isFunction then .pass else .enter

/-- Whether an expression is markup, or holds markup that is in no function but the expression
itself. -/
def containsMarkup (n : Node) : Bool := n.isMarkup || search lookForMarkup n.children

/-- Whether a node is a class. -/
def isClass (n : Node) : Bool := n.kind == "class" || n.kind == "class_declaration"

/-- A search for a statement that returns markup goes past functions and classes. -/
def lookForReturn (n : Node) : Look :=
  if n.isFunction || n.isClass then .pass
  else if n.kind == "return_statement" then
    if n.contents.head?.any containsMarkup then .found else .pass
  else .enter

/-- Whether a function returns markup: by a return statement, or as the expression that it is. -/
def returnsMarkup (fn : Node) : Bool :=
  match fn.child? "body" with
  | none => false
  | some body =>
    if body.kind == "statement_block" then search lookForReturn body.children
    else body.unwrap.any containsMarkup

/-- Whether a function keeps the name that is given to what it stands in. -/
def carriesName (n : Node) : Bool :=
  ["parenthesized_expression", "arguments", "call_expression", "as_expression",
    "satisfies_expression"].contains n.kind

/-- The part of a definition that names what is defined. -/
def definedName? (n : Node) : Option Node :=
  match n.kind with
  | "variable_declarator" => n.child? "name"
  | "pair" => n.child? "key"
  | "assignment_expression" =>
    (n.child? "left").bind fun left =>
      if left.kind == "member_expression" then left.child? "property" else some left
  | "field_definition" | "public_field_definition" => (n.child? "property").or (n.child? "name")
  | _ => none

/-- Whether a node is a plain name. -/
def isName (n : Node) : Bool :=
  ["identifier", "property_identifier", "shorthand_property_identifier"].contains n.kind

end Node

/-- How many wrappers there may be between a function and what names it. -/
def mostNameCarriers : Nat := 4

/-- The ancestors of a function without at most `n` wrappers in front. -/
def dropNameCarriers : Nat → List Node → List Node
  | n + 1, a :: rest => if a.carriesName then dropNameCarriers n rest else a :: rest
  | _, ancestors => ancestors

/-- The name of a function: its own, or that of the definition that it stands in. -/
def functionName? (t : Text) (fn : Node) (ancestors : List Node) : Option Text :=
  match fn.child? "name" with
  | some name => some (name.text t)
  | none =>
    match dropNameCarriers mostNameCarriers ancestors with
    | [] => none
    | definition :: _ =>
      (definition.definedName?.filter Node.isName).map fun name => name.text t

/-- The role of a piece of code, with the function that gives it the role. -/
structure Classification where
  scope : Scope
  /-- The function in which an accessor can be acquired. -/
  owner : Option Node := none
  functionName : Option Text := none

/-- Where the function begins in which an accessor can be acquired. -/
def Classification.ownerStart (c : Classification) : Option Int :=
  c.owner.map fun n => (n.start : Int)

/-- What decides on roles. -/
structure Surveyor where
  text : Text
  options : Options
  /-- The role of code outside of functions. -/
  moduleScope : Scope := .plain

namespace Surveyor

/-- Whether a name is that of a hook: what hooks begin with, then a capital, a digit or an
underscore. -/
def isHookName (s : Surveyor) (name : Text) : Bool :=
  name.startsWith s.options.hookStart &&
    (name.drop s.options.hookStart.length).head?.any fun (c : CodePoint) =>
      c.isAsciiUpper || c.isAsciiDigit || c == '_'

/-- Whether a function is the setup of a component in a script of its own. -/
def isSetup (s : Surveyor) (name : Option Text) : Bool :=
  s.options.framework == "vue" && s.moduleScope == .plain && name == some "setup"

/-- The role that a function has by itself. A method of a class can call no hook. -/
def classifySelf (s : Surveyor) (fn : Node) (ancestors : List Node) : Classification :=
  let name := functionName? s.text fn ancestors
  if s.isSetup name then ⟨.hook, some fn, name⟩
  else if fn.kind == "method_definition" then ⟨.plain, none, name⟩
  else if fn.returnsMarkup then ⟨.component, some fn, name⟩
  else if name.any s.isHookName then ⟨.hook, some fn, name⟩
  else ⟨.plain, none, name⟩

/-- The answers that are known, by the function. -/
abbrev Memo := List ((Nat × Nat × String) × Classification)

/-- The role of a plain function, given that of the code around it. -/
def orOuter (own outer : Classification) : Classification :=
  if outer.scope = .plain then own else outer

/-- The role of what stands in some ancestors, and the answers that are known then. -/
def classifyIn (s : Surveyor) (memo : Memo) : List Node → Classification × Memo
  | [] => ({ scope := s.moduleScope }, memo)
  | fn :: outer =>
    if fn.isFunction then
      match memo.lookup fn.identity with
      | some known => (known, memo)
      | none =>
        let own := s.classifySelf fn outer
        if own.scope = .plain then
          let (around, memo) := s.classifyIn memo outer
          let answer := orOuter own around
          (answer, put memo fn.identity answer)
        else (own, put memo fn.identity own)
    else s.classifyIn memo outer

/-- The role of a piece of code, and the answers that are known then. -/
def classify (s : Surveyor) (memo : Memo) (c : Cursor) : Classification × Memo :=
  s.classifyIn memo c.ancestors

end Surveyor

end Phrasebook
