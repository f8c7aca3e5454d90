import Phrasebook.Proofs.Component.Markup
import Phrasebook.Proofs.Edit.InOrder
import Phrasebook.Proofs.Sorting
import Phrasebook.Proofs.Text.Slice

/-!
# Replacements made from the last to the first

A replacement leaves the text before its span alone. If replacements that follow each other are made
from the last to the first, the result can therefore be read from the front: what stands between the
spans is kept, and each span gives way to its replacement.

## Main results

* `foldr_splice` — replacements in order, made from the last to the first, read from the front.
* `spliceFrom_advance`, `spliceFrom_split`, `spliceFrom_self` — what is kept before a replacement, and
  replacements one behind the other.
* `InOrder.sortDescending_eq` — replacements in order are sorted in that order.
-/

namespace Phrasebook

open List

variable {cursor limit : Nat} {splices : List Splice}

/-- A text from `cursor` on with replacements made, which are given in order. -/
def spliceFrom (t : Text) (cursor : Nat) : List Splice → Text
  | [] => t.drop cursor
  | s :: rest => t.slice cursor s.start ++ s.text ++ spliceFrom t s.stop rest

/-- The span that a replacement is made for. -/
def Splice.span (s : Splice) : Nat × Nat := (s.start, s.stop)

/-- Replacements in order follow each other. -/
lemma InOrder.follow : ∀ {splices : List Splice} {cursor : Nat},
    InOrder limit cursor splices → Follow Splice.span limit cursor splices
  | [], _, h => h
  | _ :: _, _, h => ⟨h.1, h.2.1.le, h.2.2.follow⟩

/-- **What stands before the first replacement is kept.** -/
theorem spliceFrom_advance (t : Text) {cursor' : Nat} (h : cursor ≤ cursor')
    (hstart : ∀ s ∈ splices, cursor' ≤ s.start) :
    spliceFrom t cursor splices = t.slice cursor cursor' ++ spliceFrom t cursor' splices := by
  cases splices with
  | nil => exact (t.slice_append_drop h).symm
  | cons s rest =>
    rw [spliceFrom, spliceFrom, ← t.slice_append_slice h (hstart s mem_cons_self)]
    simp only [append_assoc]

/-- **A span that is replaced by itself** may as well be left out. -/
theorem spliceFrom_self (t : Text) {start stop : Nat} (hstart : cursor ≤ start)
    (hstop : start ≤ stop) {rest : List Splice} (hrest : ∀ s ∈ rest, stop ≤ s.start) :
    spliceFrom t cursor (⟨start, stop, t.slice start stop⟩ :: rest) = spliceFrom t cursor rest := by
  rw [spliceFrom_advance t (hstart.trans hstop) hrest, spliceFrom,
    t.slice_append_slice hstart hstop]

/-- Replacements that are split where one of them stands. -/
theorem spliceFrom_split {t : Text} {s : Splice} {later : List Splice} :
    ∀ {earlier : List Splice} {cursor : Nat},
      Follow Splice.span t.length cursor (earlier ++ s :: later) →
        spliceFrom t cursor (earlier ++ s :: later) =
          spliceFrom (t.take s.start) cursor earlier ++ (s.text ++ spliceFrom t s.stop later)
  | [], _, _ => by rw [nil_append, spliceFrom, spliceFrom, append_assoc]; rfl
  | e :: earlier, cursor, h => by
    have hrest : Follow Splice.span t.length e.stop (earlier ++ s :: later) := h.2.2
    have hle : e.start ≤ s.start := h.2.1.trans hrest.cursor_le_start
    have hslice : Text.slice (t.take s.start) cursor e.start = t.slice cursor e.start := by
      rw [Text.slice, Text.slice, take_take, min_eq_left hle]
    rw [cons_append, spliceFrom, spliceFrom, hslice, spliceFrom_split hrest]
    simp only [append_assoc]

/-- **Replacements from the last to the first** leave the text before them alone and make the rest of
it what it is when read from the front.

**Proof sketch.** Induction on the replacements in order. When the first of them is made, last of
all, the text behind its span is what the others have made of it, and the rest has not been touched. -/
theorem foldr_splice (t : Text) (h : Follow Splice.span t.length cursor splices) :
    splices.foldr Splice.apply t = t.take cursor ++ spliceFrom t cursor splices := by
  induction splices generalizing cursor with
  | nil => exact (take_append_drop cursor t).symm
  | cons s rest ih =>
    obtain ⟨hstart, hstop, hrest⟩ := h
    simp only [Splice.span] at hstart hstop hrest
    rw [foldr_cons, ih hrest, Splice.apply, Text.splice_eq t s.text _ hstop hrest.cursor_le,
      spliceFrom, ← t.take_append_slice hstart]
    simp only [append_assoc]

/-- **Replacements in order are sorted in that order**, the last of them first. -/
theorem InOrder.sortDescending_eq
    (h : InOrder limit cursor splices) : sortDescending Splice.orderKey splices = splices.reverse := by
  obtain ⟨-, hmem, hpair⟩ := inOrder_iff.mp h
  have hincreasing : splices.Pairwise fun a b => (a.start : Int) < b.start := by
    refine hpair.imp_of_mem fun {a b} ha _ hle => ?_
    have hlt := (hmem a ha).2.1
    omega
  have hsorted : (sortDescending Splice.orderKey splices).reverse = splices :=
    reverse_sortDescending (fun s : Splice => (s.start : Int)) (fun _ => ⟨_, rfl⟩) (.refl _) hincreasing
  exact reverse_eq_iff.mp hsorted

end Phrasebook
