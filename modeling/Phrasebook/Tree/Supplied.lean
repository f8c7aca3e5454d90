import Phrasebook.Tree.Parse

/-!
# Supplied trees

Trees that were made elsewhere, and are looked up by dialect and text. They are kept as JSON: a list
of objects with the members `dialect`, `text` and `rows`. A row is a list of the depth of a node, its
kind, its marks, the bytes where it begins and ends, and the field in which it stands, if any. The
marks are the sum of 1 for a named node, 2 for a missing one, and 4 for a root with faults below it.

## Main definitions

* `Parser.ofSupplied` — the parser that looks trees up.
-/

namespace Phrasebook

/-- A tree that was made elsewhere. -/
structure SuppliedTree where
  /-- The dialect in which the text was parsed. -/
  dialect : Dialect
  text : Text
  tree : Tree

/-- Whether a mark is set. -/
def hasMark (marks mark : Nat) : Bool := marks / mark % 2 == 1

/-- A row and its marks. -/
def Row.ofJson? : Json → Option (Nat × Row)
  | .array (.integer depth :: .text kind :: .integer marks :: .integer start :: .integer stop
      :: field) =>
    let label : Label :=
      { kind := kind.display
        named := hasMark marks.toNat 1
        missing := hasMark marks.toNat 2
        start := start.toNat
        stop := stop.toNat
        field := match field with
          | .text f :: _ => some f.display
          | _ => none }
    some (marks.toNat, ⟨depth.toNat, label⟩)
  | _ => none

/-- The tree that rows spell. -/
def Tree.ofRows? (rows : List (Nat × Row)) : Option Tree := do
  let root ← Node.ofRows (rows.map Prod.snd)
  return ⟨root, rows.head?.any fun r => hasMark r.1 4⟩

/-- A supplied tree. -/
def SuppliedTree.ofJson? : Json → Option SuppliedTree
  | .object members =>
    let member (name : Text) : Option Json := members.lookup name
    match member "dialect", member "text", member "rows" with
    | some (.text dialect), some (.text t), some (.array rows) => do
      let d ← Dialect.ofName? dialect
      let tree ← Tree.ofRows? (← rows.mapM Row.ofJson?)
      return ⟨d, t, tree⟩
    | _, _, _ => none
  | _ => none

/-- Supplied trees. -/
def SuppliedTree.listOfJson? : Json → Option (List SuppliedTree)
  | .array trees => trees.mapM SuppliedTree.ofJson?
  | _ => none

/-- The tree of a text that nobody has parsed: it is faulty. -/
def Tree.unknown : Tree := ⟨.mk { kind := "ERROR", start := 0, stop := 0 } [], true⟩

/-- The parser that looks trees up. -/
def Parser.ofSupplied (trees : List SuppliedTree) : Parser := fun d t =>
  ((trees.find? fun s => s.dialect == d && s.text == t).map SuppliedTree.tree).getD .unknown

end Phrasebook
