/-!
# Stable sorting

Sorting by insertion. Elements that compare equal keep the order in which they were given, in an
ascending and in a descending sort alike; the lists of this library are short.

## Main definitions

* `sortStable` — sorting by an order.
* `sortAscending`, `sortDescending` — sorting by keys.
-/

namespace Phrasebook

/-- Put an element before the first one that it may precede. -/
def insertSorted {α : Type} (le : α → α → Bool) (a : α) : List α → List α
  | [] => [a]
  | b :: l => if le a b then a :: b :: l else b :: insertSorted le a l

/-- Sort a list; elements that may precede each other keep their order. -/
def sortStable {α : Type} (le : α → α → Bool) : List α → List α
  | [] => []
  | a :: l => insertSorted le a (sortStable le l)

/-- The lexicographic order on lists of integers. -/
def keysLe : List Int → List Int → Bool
  | [], _ => true
  | _ :: _, [] => false
  | a :: s, b :: t => if a = b then keysLe s t else a ≤ b

/-- Sort with the smallest key first. -/
def sortAscending {α : Type} (key : α → List Int) : List α → List α :=
  sortStable fun a b => keysLe (key a) (key b)

/-- Sort with the greatest key first. -/
def sortDescending {α : Type} (key : α → List Int) : List α → List α :=
  sortStable fun a b => keysLe (key b) (key a)

end Phrasebook
