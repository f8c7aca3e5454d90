import Phrasebook.Assoc
import Phrasebook.Message.Key

/-!
# Catalogues

A catalogue tells for a message text the keys under which it is known. It is made from a table of
messages, which may be nested: the names on the way to a text, joined by dots, are its key.

## Main definitions

* `Json.flatten` — the flat table of a nested one.
* `Catalogue.ofTable` — the catalogue of a flat table.
-/

namespace Phrasebook

/-- The keys under which one message text is known. -/
inductive Entry where
  | single (key : Key)
  /-- Several keys and the primary one among them. -/
  | several (primary : Key) (keys : List Key)
  deriving DecidableEq

namespace Entry

/-- The key that is used unless something else is decided. -/
def primary : Entry → Key
  | single key => key
  | several key _ => key

/-- All keys. -/
def keys : Entry → List Key
  | single key => [key]
  | several _ keys => keys

/-- The entry of a first key and those after it. -/
def ofKeys (first : Key) : List Key → Entry
  | [] => single first
  | others => several first (first :: others)

end Entry

/-- Message texts with the keys under which they are known. -/
abbrev Catalogue := List (Text × Entry)

mutual

/-- The texts of a nested table with their dotted keys, in document order. Members without a name
are passed over, and so is a text that has no key. -/
def Json.leaves (path : Text) : Json → List (Text × Text)
  | .object members => Json.memberLeaves path members
  | .text t => if path.isEmpty then [] else [(path, t)]
  | _ => []

/-- The texts below the members of an object. -/
def Json.memberLeaves (path : Text) : List (Text × Json) → List (Text × Text)
  | [] => []
  | (name, value) :: members =>
    (if name.isEmpty then []
      else Json.leaves (if path.isEmpty then name else path ++ "." ++ name) value)
      ++ Json.memberLeaves path members

end

/-- The flat table of a nested one. -/
def Json.flatten (path : Text) (value : Json) : List (Text × Text) := tableOf (value.leaves path)

/-- The keys of every text of a flat table, texts and keys in the order of the table. -/
def keysByText (table : List (Text × Text)) : List (Text × List Key) :=
  table.foldl (fun groups pair =>
    put groups pair.2 ((groups.lookup pair.2).getD [] ++ [.name pair.1])) []

/-- The catalogue of a flat table. -/
def Catalogue.ofTable (table : List (Text × Text)) : Catalogue :=
  (keysByText table).filterMap fun (text, keys) =>
    match keys with
    | [] => none
    | first :: others => some (text, Entry.ofKeys first others)

end Phrasebook
