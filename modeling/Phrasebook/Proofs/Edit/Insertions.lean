import Phrasebook.Edit.Insertion
import Phrasebook.Proofs.Edit.Weave
import Phrasebook.Proofs.Message.Bookkeeping

/-!
# Insertions, read from the front

Insertions are made from the last place to the first, so none of them moves the place of another.

## Main results

* `applyInsertions_eq_ok` — the text is kept, with the insertions in their order.
* `insertedAt_of_mem` — every insertion stands at its place in it.
-/

namespace Phrasebook

open List

variable {insertions : List Insertion} {out t : Text}

/-- An insertion as the replacement of an empty span. -/
def Insertion.splice (i : Insertion) : Splice := ⟨i.position.toNat, i.position.toNat, i.text⟩

/-! ## Insertions in order -/

lemma Insertion.apply_eq_ok {i : Insertion} (h : i.apply t = .ok out) :
    0 ≤ i.position ∧ i.position ≤ t.length ∧ out = i.splice.apply t := by
  rw [Insertion.apply] at h
  split_ifs at h with hrange
  rw [Bool.and_eq_true_iff, decide_eq_true_eq, decide_eq_true_eq] at hrange
  exact ⟨hrange.1, hrange.2, (Except.ok.inj h).symm⟩

/-- **Insertions in order, made from the last to the first.** The places of all of them are in the
text, although the earlier ones are looked for in a text that has grown already. -/
theorem foldlM_insert (hsorted : insertions.Pairwise fun a b => a.position ≤ b.position)
    (h : insertions.reverse.foldlM Insertion.apply t = .ok out) :
    (∀ i ∈ insertions, 0 ≤ i.position ∧ i.position ≤ t.length) ∧
      out = (insertions.map Insertion.splice).foldr Splice.apply t := by
  induction insertions generalizing out with
  | nil => exact ⟨by simp, (Except.ok.inj h).symm⟩
  | cons i rest ih =>
    obtain ⟨hfirst, hsorted⟩ := pairwise_cons.mp hsorted
    rw [reverse_cons, foldlM_append] at h
    obtain ⟨middle, hmiddle, hlast⟩ := exists_ok_of_bind h
    simp only [foldlM_cons, foldlM_nil, bind_pure] at hlast
    obtain ⟨hrest, rfl⟩ := ih hsorted hmiddle
    obtain ⟨hnonneg, hle, rfl⟩ := Insertion.apply_eq_ok hlast
    refine ⟨forall_mem_cons.mpr ⟨⟨hnonneg, ?_⟩, hrest⟩, rfl⟩
    -- The first place is not behind the next one; if there is none, the text has not grown yet.
    cases rest with
    | nil => exact hle
    | cons next rest =>
      exact (hfirst next mem_cons_self).trans (hrest next mem_cons_self).2

/-- Insertions in order are replacements that follow each other. -/
lemma follow_insertions {cursor : Nat} (hle : cursor ≤ t.length)
    (hsorted : insertions.Pairwise fun a b => a.position ≤ b.position)
    (hrange : ∀ i ∈ insertions, (cursor : Int) ≤ i.position ∧ i.position ≤ t.length) :
    Follow Splice.span t.length cursor (insertions.map Insertion.splice) := by
  induction insertions generalizing cursor with
  | nil => exact hle
  | cons i rest ih =>
    obtain ⟨hfirst, hsorted⟩ := pairwise_cons.mp hsorted
    have hi := hrange i mem_cons_self
    refine ⟨?_, le_rfl, ih ?_ hsorted fun j hj => ⟨?_, (hrange j (mem_cons_of_mem i hj)).2⟩⟩
    · simp only [Splice.span, Insertion.splice]
      omega
    · simp only [Splice.span, Insertion.splice]
      omega
    · have hij := hfirst j hj
      simp only [Splice.span, Insertion.splice]
      omega

/-! ## All insertions -/

/-- The insertions in the order in which they stand in the result. -/
def inPlaceOrder (insertions : List Insertion) : List Insertion :=
  (sortDescending (fun i : Insertion => [i.position, i.order]) insertions).reverse

lemma inPlaceOrder_perm (insertions : List Insertion) : (inPlaceOrder insertions).Perm insertions :=
  (reverse_perm _).trans (sortDescending_perm _ insertions)

lemma pairwise_inPlaceOrder (insertions : List Insertion) :
    (inPlaceOrder insertions).Pairwise fun a b => a.position ≤ b.position := by
  have hsorted := pairwise_sortDescending (fun i : Insertion => [i.position, i.order]) insertions
  exact pairwise_reverse.mpr (hsorted.imp fun hle => le_of_keysLe_cons hle)

/-- **The text with all insertions**: every place is in the text, and the text is kept between them. -/
theorem applyInsertions_eq_ok (h : applyInsertions t insertions = .ok out) :
    (∀ i ∈ inPlaceOrder insertions, 0 ≤ i.position ∧ i.position ≤ t.length) ∧
      out = spliceFrom t 0 ((inPlaceOrder insertions).map Insertion.splice) := by
  have hsorted := pairwise_inPlaceOrder insertions
  rw [applyInsertions, ← reverse_reverse (sortDescending _ insertions)] at h
  obtain ⟨hrange, rfl⟩ := foldlM_insert hsorted h
  exact ⟨hrange, foldr_splice t (follow_insertions (Nat.zero_le t.length) hsorted hrange)⟩

/-- **A text that has been inserted at a place**, with all other planned insertions: what stands before it
comes from the text before the place, and what stands behind it from the rest. -/
def InsertedAt (planned : List Insertion) (t out : Text) (place : Nat) (text : Text) : Prop :=
  place ≤ t.length ∧ ∃ (earlier later : List Insertion) (order : Int),
    (earlier ++ ⟨place, text, order⟩ :: later).Perm planned ∧
      (∀ i ∈ earlier, i.position ≤ place) ∧ (∀ i ∈ later, (place : Int) ≤ i.position) ∧
      out = spliceFrom (t.take place) 0 (earlier.map Insertion.splice) ++
        (text ++ spliceFrom t place (later.map Insertion.splice))

/-- **Each insertion is found at its place.** -/
theorem insertedAt_of_mem (h : applyInsertions t insertions = .ok out) {place : Nat} {text : Text} {order : Int}
    (hmem : (⟨place, text, order⟩ : Insertion) ∈ insertions) : InsertedAt insertions t out place text := by
  obtain ⟨hrange, rfl⟩ := applyInsertions_eq_ok h
  have hsorted := pairwise_inPlaceOrder insertions
  have hfollow := follow_insertions (Nat.zero_le t.length) hsorted hrange
  obtain ⟨earlier, later, horder⟩ :=
    append_of_mem ((inPlaceOrder_perm insertions).mem_iff.mpr hmem)
  rw [horder] at hrange hsorted
  rw [horder, map_append, map_cons] at hfollow
  obtain ⟨-, hlater, hearlier⟩ := pairwise_append.mp hsorted
  refine ⟨?_, earlier, later, order, horder ▸ inPlaceOrder_perm insertions, fun i hi => ?_,
    (pairwise_cons.mp hlater).1, ?_⟩
  · have hplace := (hrange _ (mem_append_right _ mem_cons_self)).2
    exact Int.ofNat_le.mp hplace
  · exact hearlier i hi _ mem_cons_self
  · rw [horder, map_append, map_cons, spliceFrom_split hfollow]
    rfl

end Phrasebook
