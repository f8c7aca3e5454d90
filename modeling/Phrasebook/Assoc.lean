/-!
# Tables in order of arrival

A table is a list of pairs in which every name stands once, in the order in which the names came.
Setting a name that is there changes its value and leaves it in its place.

## Main definitions

* `put`, `tableOf` — set a name, and all names of a list.
-/

namespace Phrasebook

/-- Set a name in a table: in its place if it is there, else at the end. -/
def put {α β : Type} [BEq α] (table : List (α × β)) (name : α) (value : β) : List (α × β) :=
  match table with
  | [] => [(name, value)]
  | (n, v) :: rest => if n == name then (n, value) :: rest else (n, v) :: put rest name value

/-- Set several names of a table in turn. -/
def putAll {α β : Type} [BEq α] (table pairs : List (α × β)) : List (α × β) :=
  pairs.foldl (fun t pair => put t pair.1 pair.2) table

/-- The table of a list of pairs: a name stands where it came first, with the value that came
last. -/
def tableOf {α β : Type} [BEq α] (pairs : List (α × β)) : List (α × β) := putAll [] pairs

end Phrasebook
