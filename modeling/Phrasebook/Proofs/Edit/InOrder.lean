import Mathlib.Data.List.Basic
import Phrasebook.Edit.Apply

/-!
# Replacements in order

Replacements between two offsets, none of which is empty or overlaps another, from the first to the
last.

## Main results

* `InOrder.append` — such lists can be put together where one ends and another begins.
-/

namespace Phrasebook

variable {cursor limit' : Nat}

/-- Replacements in order from `cursor` to `limit`: no span is empty, none begins before the one in
front of it ends, and all lie between the two. -/
def InOrder (limit : Nat) : Nat → List Splice → Prop
  | cursor, [] => cursor ≤ limit
  | cursor, s :: rest => cursor ≤ s.start ∧ s.start < s.stop ∧ InOrder limit s.stop rest

namespace InOrder

variable {limit : Nat}

/-- There is nothing between offsets that are not in order. -/
lemma cursor_le : ∀ {splices : List Splice} {cursor : Nat},
    InOrder limit cursor splices → cursor ≤ limit
  | [], _, h => h
  | s :: rest, cursor, h => by
    have hrest := h.2.2.cursor_le
    have hstart := h.1
    have hlt := h.2.1
    omega

/-- Replacements in order begin before the later ones do. -/
lemma cursor_le_start {s : Splice} {later : List Splice} :
    ∀ {earlier : List Splice} {cursor : Nat},
      InOrder limit cursor (earlier ++ s :: later) → cursor ≤ s.start
  | [], _, h => h.1
  | e :: earlier, cursor, h => by
    have hrest : e.stop ≤ s.start := cursor_le_start h.2.2
    have hstart := h.1
    have hlt := h.2.1
    omega

lemma of_le {cursor' : Nat} (hle : cursor' ≤ cursor) : ∀ {splices : List Splice},
    InOrder limit cursor splices → InOrder limit cursor' splices
  | [], h => Nat.le_trans hle h
  | _ :: _, h => ⟨Nat.le_trans hle h.1, h.2⟩

lemma of_limit_le (hle : limit ≤ limit') : ∀ {splices : List Splice} {cursor : Nat},
    InOrder limit cursor splices → InOrder limit' cursor splices
  | [], _, h => Nat.le_trans h hle
  | _ :: _, _, h => ⟨h.1, h.2.1, of_limit_le hle h.2.2⟩

/-- Replacements behind others. -/
theorem append {others : List Splice} (hothers : InOrder limit' limit others) :
    ∀ {splices : List Splice} {cursor : Nat},
      InOrder limit cursor splices → InOrder limit' cursor (splices ++ others)
  | [], _, h => hothers.of_le h
  | _ :: _, _, h => ⟨h.1, h.2.1, append hothers h.2.2⟩

end InOrder

/-- **Replacements in order** are those that lie between the offsets, are not empty and follow each
other. -/
theorem inOrder_iff {limit : Nat} {splices : List Splice} :
    InOrder limit cursor splices ↔ cursor ≤ limit ∧
      (∀ s ∈ splices, cursor ≤ s.start ∧ s.start < s.stop ∧ s.stop ≤ limit) ∧
        splices.Pairwise fun a b => a.stop ≤ b.start := by
  induction splices generalizing cursor with
  | nil => simp [InOrder]
  | cons s rest ih =>
    rw [InOrder, ih, List.forall_mem_cons, List.pairwise_cons]
    constructor
    · rintro ⟨hstart, hlt, hle, hall, hpair⟩
      refine ⟨by omega, ⟨⟨hstart, hlt, hle⟩, fun r hr => ?_⟩, fun r hr => (hall r hr).1, hpair⟩
      have hr' := hall r hr
      omega
    · rintro ⟨-, ⟨⟨hstart, hlt, hle⟩, hall⟩, hnext, hpair⟩
      exact ⟨hstart, hlt, hle, fun r hr => ⟨hnext r hr, (hall r hr).2⟩, hpair⟩

end Phrasebook
