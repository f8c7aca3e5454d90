import Mathlib.Algebra.Ring.Nat
import Phrasebook.Proofs.Edit.Insertions

/-!
# Insertions, place by place

An insertion is looked for in a text that has grown already, but it is made before all those that stand
in front of it, so the places are those of the text itself.

## Main results

* `spliceFrom_eq_interleave`, `applyInsertions_exact` — a text with insertions is the text with a piece
  before each of its characters and one behind the last, made of the insertions there, the lowest order
  first.
* `getElem?_movedTo`, `slice_movedTo` — where characters and slices go.
-/

namespace Phrasebook

open List

variable {insertions : List Insertion} {place cursor : Nat} {pieces pieces' : Nat → Text} {t : Text}
  {i : Insertion} {p : Problem}

/-! ## Pieces between characters -/

namespace Text

/-- A text that begins at `place`, with a piece before each of its characters and one behind the
last. -/
def interleave (pieces : Nat → Text) (place : Nat) : Text → Text
  | [] => pieces place
  | c :: rest => pieces place ++ c :: interleave pieces (place + 1) rest

/-- What is left of a text when the pieces between `count` characters are deleted: each piece is skipped,
and the character behind it is kept. -/
def withoutPieces (pieces : Nat → Text) (place : Nat) : Nat → Text → Text
  | 0, t => t.drop (pieces place).length
  | count + 1, t =>
    let rest := t.drop (pieces place).length
    rest.take 1 ++ withoutPieces pieces (place + 1) count (rest.drop 1)

/-- **Deleting the pieces gives back the text.** -/
theorem withoutPieces_interleave (pieces : Nat → Text) (place : Nat) (t : Text) :
    withoutPieces pieces place t.length (interleave pieces place t) = t := by
  induction t generalizing place with
  | nil => simp [interleave, withoutPieces]
  | cons c rest ih => simp [interleave, withoutPieces, ih]

/-- Only the pieces from the beginning on matter. -/
lemma interleave_congr (h : ∀ p, place ≤ p → pieces p = pieces' p) (t : Text) :
    interleave pieces place t = interleave pieces' place t := by
  induction t generalizing place with
  | nil => exact h place le_rfl
  | cons c rest ih =>
    rw [interleave, interleave, h place le_rfl, ih fun p hp => h p (Nat.le_of_succ_le hp)]

/-- Where nothing is put in, the text is kept. -/
lemma interleave_skip (t : Text) (hle : cursor ≤ place) (hlen : place ≤ t.length)
    (h : ∀ p, cursor ≤ p → p < place → pieces p = []) :
    interleave pieces cursor (t.drop cursor) =
      t.slice cursor place ++ interleave pieces place (t.drop place) := by
  induction hle using Nat.decreasingInduction with
  | self => simp [slice]
  | of_succ cursor hlt ih =>
    have hcursor : cursor < t.length := hlt.trans_le hlen
    rw [drop_eq_getElem_cons hcursor, interleave, h cursor le_rfl hlt, nil_append,
      ih fun p hp => h p (Nat.le_of_succ_le hp), ← t.slice_append_slice (Nat.le_succ cursor) hlt,
      slice_eq_take_drop t cursor (cursor + 1), drop_eq_getElem_cons hcursor,
      Nat.add_sub_cancel_left]
    rfl

lemma drop_interleave (pieces : Nat → Text) (t : Text) (hle : place ≤ t.length) :
    (interleave pieces 0 t).drop (place + ((List.range place).map fun p => (pieces p).length).sum) =
      interleave pieces place (t.drop place) := by
  induction place with
  | zero => simp
  | succ place ih =>
    have hlt : place < t.length := hle
    have hoffset : place + 1 + ((List.range (place + 1)).map fun p => (pieces p).length).sum =
        place + ((List.range place).map fun p => (pieces p).length).sum + ((pieces place).length + 1) := by
      rw [range_succ, map_append, sum_append, map_singleton, sum_singleton]
      omega
    rw [hoffset, ← drop_drop, ih hlt.le, drop_eq_getElem_cons hlt, interleave]
    simp

lemma interleave_prepend {piece : Text}
    (hfirst : pieces' place = piece ++ pieces place) (h : ∀ p, place < p → pieces' p = pieces p) (t : Text) :
    interleave pieces' place t = piece ++ interleave pieces place t := by
  cases t with
  | nil => exact hfirst
  | cons c rest => simp [interleave, hfirst, interleave_congr h]

end Text

/-! ## Insertions in order -/

/-- The insertions at a place. -/
def insertionsAt (insertions : List Insertion) (place : Nat) : List Insertion :=
  insertions.filter fun i => i.position = (place : Int)

/-- What is inserted at a place. -/
def pieceAt (insertions : List Insertion) (place : Nat) : Text :=
  (insertionsAt insertions place).flatMap Insertion.text

/-- **Insertions in order, place by place.** -/
theorem spliceFrom_eq_interleave (t : Text) (hsorted : insertions.Pairwise fun a b => a.position ≤ b.position)
    (hrange : ∀ i ∈ insertions, (cursor : Int) ≤ i.position ∧ i.position ≤ t.length) :
    spliceFrom t cursor (insertions.map Insertion.splice) =
      Text.interleave (pieceAt insertions) cursor (t.drop cursor) := by
  induction insertions generalizing cursor with
  | nil =>
    by_cases hlen : cursor ≤ t.length
    · have hnone : ∀ p, cursor ≤ p → p < t.length → pieceAt [] p = [] := fun _ _ _ => rfl
      rw [Text.interleave_skip t hlen le_rfl hnone]
      simp [spliceFrom, Text.interleave, pieceAt, insertionsAt, Text.slice]
    · simp [spliceFrom, Text.interleave, pieceAt, insertionsAt, drop_eq_nil_of_le (not_le.mp hlen).le]
  | cons i rest ih =>
    obtain ⟨hfirst, hsorted⟩ := pairwise_cons.mp hsorted
    obtain ⟨hlow, hhigh⟩ := hrange i mem_cons_self
    obtain ⟨place, hplace⟩ := Int.eq_ofNat_of_zero_le ((Int.natCast_nonneg cursor).trans hlow)
    rw [hplace] at hlow hhigh hfirst
    have hle : cursor ≤ place := by exact_mod_cast hlow
    have hlen : place ≤ t.length := by exact_mod_cast hhigh
    -- Nothing is inserted before the first place, and there the first insertion comes first.
    have hnone : ∀ p, cursor ≤ p → p < place → pieceAt (i :: rest) p = [] := by
      intro p _ hp
      have hempty : insertionsAt (i :: rest) p = [] := by
        refine filter_eq_nil_iff.mpr fun j hj => ?_
        have hj' : (place : Int) ≤ j.position := by
          rcases mem_cons.mp hj with rfl | hj
          · exact hplace.ge
          · exact hfirst j hj
        rw [decide_eq_true_eq]
        omega
      rw [pieceAt, hempty]
      rfl
    have hhere : pieceAt (i :: rest) place = i.text ++ pieceAt rest place := by
      simp [pieceAt, insertionsAt, hplace]
    have hbehind : ∀ p, place < p → pieceAt (i :: rest) p = pieceAt rest p := by
      intro p hp
      have hne : ¬i.position = p := by omega
      simp [pieceAt, insertionsAt, hne]
    have hrest := ih hsorted fun j hj => ⟨hfirst j hj, (hrange j (mem_cons_of_mem i hj)).2⟩
    rw [map_cons, spliceFrom, Text.interleave_skip t hle hlen hnone,
      Text.interleave_prepend hhere hbehind, ← hrest, append_assoc]
    simp [Insertion.splice, hplace]

/-! ## All insertions -/

lemma Insertion.apply_eq_error (h : i.apply t = .error p) : p.cause.kind = .misplaced := by
  rw [Insertion.apply] at h
  split_ifs at h
  exact Except.error.inj h ▸ rfl

/-- The only problem of insertions is a place. -/
lemma kind_of_applyInsertions (h : applyInsertions t insertions = .error p) :
    p.cause.kind = .misplaced := by
  have hfold : ∀ (l : List Insertion) (t : Text), l.foldlM Insertion.apply t = .error p →
      p.cause.kind = .misplaced := by
    intro l
    induction l with
    | nil => exact fun _ h => nomatch h
    | cons i l ih =>
      intro t h
      rw [foldlM_cons] at h
      cases hstep : i.apply t with
      | error e =>
        rw [hstep] at h
        exact Except.error.inj h ▸ Insertion.apply_eq_error hstep
      | ok t' =>
        rw [hstep] at h
        exact ih t' h
  exact hfold _ t h

/-- **Insertions inside of a text can be made**, in whatever order: the text only grows. -/
theorem exists_ok_of_inRange (h : ∀ i ∈ insertions, 0 ≤ i.position ∧ i.position ≤ t.length) :
    ∃ out, insertions.foldlM Insertion.apply t = .ok out := by
  induction insertions generalizing t with
  | nil => exact ⟨t, rfl⟩
  | cons i rest ih =>
    obtain ⟨hnonneg, hle⟩ := h i mem_cons_self
    have hstep : i.apply t = .ok (i.splice.apply t) := by
      simp [Insertion.apply, hnonneg, hle, Insertion.splice, Splice.apply]
    have hgrows : t.length ≤ (i.splice.apply t).length := by
      simp only [Insertion.splice, Splice.apply, Text.splice, length_append, length_take,
        length_drop]
      omega
    rw [foldlM_cons, hstep]
    refine ih fun j hj => ?_
    have hj := h j (mem_cons_of_mem i hj)
    omega

/-- Insertions are made if all places are in the text, and not otherwise. -/
lemma exists_applyInsertions_eq_ok_iff :
    (∃ out, applyInsertions t insertions = .ok out) ↔
      ∀ i ∈ insertions, 0 ≤ i.position ∧ i.position ≤ t.length := by
  constructor
  · rintro ⟨out, h⟩ i hi
    exact (applyInsertions_eq_ok h).1 i ((inPlaceOrder_perm insertions).mem_iff.mpr hi)
  · intro h
    exact exists_ok_of_inRange fun i hi => h i ((sortDescending_perm _ insertions).mem_iff.mp hi)

/-- Insertions with different places or orders are in order at each place. -/
lemma pairwise_insertionsAt
    (hdistinct : insertions.Pairwise fun a b => (a.position, a.order) ≠ (b.position, b.order)) (place : Nat) :
    (insertionsAt (inPlaceOrder insertions) place).Pairwise fun i j => i.order < j.order := by
  have hne := hdistinct.perm (inPlaceOrder_perm insertions).symm fun h => h.symm
  have hsorted := pairwise_reverse.mpr
    (pairwise_sortDescending (fun i : Insertion => [i.position, i.order]) insertions)
  refine ((hne.and hsorted).filter _).imp_of_mem fun {i j} hi hj hij => ?_
  obtain ⟨hdiff, hle⟩ := hij
  have hi' : i.position = place := by simpa using (mem_filter.mp hi).2
  have hj' : j.position = place := by simpa using (mem_filter.mp hj).2
  simp only [keysLe, hi', hj', if_true] at hle
  simp only [hi', hj', ne_eq, Prod.mk.injEq, true_and] at hdiff
  simp only [hdiff, if_false, decide_eq_true_eq] at hle
  omega

/-- The text with all insertions, place by place. -/
lemma applyInsertions_eq_interleave {out : Text} (h : applyInsertions t insertions = .ok out) :
    out = t.interleave (pieceAt (inPlaceOrder insertions)) 0 := by
  obtain ⟨hplaces, hweave⟩ := applyInsertions_eq_ok h
  exact hweave.trans (spliceFrom_eq_interleave t (pairwise_inPlaceOrder insertions) hplaces)

/-- **Insertions are exact.** Insertions that differ in their places or orders are refused exactly if a
place is outside of the text. Otherwise the result is the text with a piece at each place, made of the
insertions there in increasing order, and deleting the pieces gives back the text. The order in which
the insertions are listed does not matter.

**Proof sketch.** Sorted, the insertions are in order of their places, and `spliceFrom_eq_interleave`
reads the result place by place. Since no two of them have the same key, there is one sorted list. -/
theorem applyInsertions_exact (t : Text) (insertions : List Insertion)
    (hdistinct : insertions.Pairwise fun a b => (a.position, a.order) ≠ (b.position, b.order)) :
    ((∃ p, applyInsertions t insertions = .error p ∧ p.cause.kind = .misplaced) ↔
      ∃ i ∈ insertions, i.position < 0 ∨ t.length < i.position) ∧
    ((∀ i ∈ insertions, 0 ≤ i.position ∧ i.position ≤ t.length) →
      ∃ (out : Text) (piles : Nat → List Insertion),
        applyInsertions t insertions = .ok out ∧
        (∀ place, (piles place).Perm (insertionsAt insertions place) ∧
          (piles place).Pairwise fun i j => i.order < j.order) ∧
        out = t.interleave (fun place => (piles place).flatMap Insertion.text) 0 ∧
        Text.withoutPieces (fun place => (piles place).flatMap Insertion.text) 0 t.length out = t) ∧
    ∀ others, others.Perm insertions → applyInsertions t others = applyInsertions t insertions := by
  refine ⟨?_, ?_, ?_⟩
  · have hrefused : (∃ p, applyInsertions t insertions = .error p ∧ p.cause.kind = .misplaced) ↔
        ¬∃ out, applyInsertions t insertions = .ok out := by
      cases hresult : applyInsertions t insertions with
      | ok out => simp
      | error p => simpa using kind_of_applyInsertions hresult
    rw [hrefused, exists_applyInsertions_eq_ok_iff]
    simp only [not_forall, not_and_or, not_le, exists_prop]
  · intro hrange
    obtain ⟨out, hout⟩ := exists_applyInsertions_eq_ok_iff.mpr hrange
    have hexact := applyInsertions_eq_interleave hout
    refine ⟨out, insertionsAt (inPlaceOrder insertions), hout, fun place => ?_, hexact, ?_⟩
    · exact ⟨(inPlaceOrder_perm insertions).filter _, pairwise_insertionsAt hdistinct place⟩
    · rw [hexact]
      exact Text.withoutPieces_interleave _ 0 t
  · intro others hperm
    have hkeys : insertions.Pairwise fun a b => [a.position, a.order] ≠ [b.position, b.order] :=
      hdistinct.imp fun hne heq => hne (by simpa using heq)
    rw [applyInsertions, applyInsertions, sortDescending_eq_of_perm _ hperm.symm hkeys]

/-- Two insertions at the end of a text and one in it, listed in another order. -/
theorem applyInsertions_exact_import :
    let insertions : List Insertion := [⟨2, ";", 1000⟩, ⟨1, "-", 2⟩, ⟨2, "!", 1⟩]
    insertions.Pairwise (fun a b => (a.position, a.order) ≠ (b.position, b.order)) ∧
      (∀ i ∈ insertions, 0 ≤ i.position ∧ i.position ≤ 2) ∧
      ∃ piles : Nat → List Insertion,
        (∀ place, (piles place).Perm (insertionsAt insertions place) ∧
          (piles place).Pairwise fun i j => i.order < j.order) ∧
        (Text.ofString "a-b!;") =
          Text.interleave (fun place => (piles place).flatMap Insertion.text) 0 "ab" := by
  intro insertions
  have hdistinct : insertions.Pairwise fun a b => (a.position, a.order) ≠ (b.position, b.order) := by
    decide
  have hrange : ∀ i ∈ insertions, 0 ≤ i.position ∧ i.position ≤ 2 := by decide
  obtain ⟨out, piles, hout, hpiles, hexact, -⟩ := (applyInsertions_exact "ab" insertions hdistinct).2.1 hrange
  have heq : applyInsertions "ab" insertions = .ok (Text.ofString "a-b!;") := by rfl
  obtain rfl := Except.ok.inj (hout.symm.trans heq)
  exact ⟨hdistinct, hrange, piles, hpiles, hexact⟩

/-! ## Where the characters go -/

/-- **Where a character stands after insertions**: behind all that is inserted at its place or before. -/
def movedTo (insertions : List Insertion) (place : Nat) : Nat :=
  place + ((insertions.filter fun i => i.position ≤ (place : Int)).map fun i => i.text.length).sum

/-- How much is inserted up to a place, counted place by place. -/
lemma sum_length_pieceAt (hnonneg : ∀ i ∈ insertions, 0 ≤ i.position) (place : Nat) :
    ((List.range (place + 1)).map fun p => (pieceAt insertions p).length).sum =
      ((insertions.filter fun i => i.position ≤ (place : Int)).map fun i => i.text.length).sum := by
  -- The insertions up to a place are those before it and those at it.
  have hstep : ∀ (l : List Insertion) (place : Nat),
      ((l.filter fun i => i.position < (place : Int)).map fun i => i.text.length).sum +
          (pieceAt l place).length =
        ((l.filter fun i => i.position ≤ (place : Int)).map fun i => i.text.length).sum := by
    intro l place
    induction l with
    | nil => rfl
    | cons i l ih =>
      simp only [pieceAt, insertionsAt, length_flatMap, filter_cons] at ih ⊢
      rcases lt_trichotomy i.position place with hlt | heq | hgt
      · simp [hlt, hlt.le, hlt.ne]
        omega
      · simp [heq]
        omega
      · simp [hgt.not_gt, hgt.not_ge, hgt.ne', ih]
  induction place with
  | zero =>
    have hnone : (insertions.filter fun i => i.position < ((0 : Nat) : Int)) = [] := by
      simpa using hnonneg
    rw [← hstep insertions 0, hnone]
    simp
  | succ place ih =>
    have hbefore : (insertions.filter fun i => i.position < ((place + 1 : Nat) : Int)) =
        insertions.filter fun i => i.position ≤ (place : Int) := by
      refine filter_congr fun i _ => decide_eq_decide.mpr ?_
      omega
    rw [range_succ, map_append, sum_append, ih, ← hstep insertions (place + 1), hbefore]
    simp

section Moved

variable {t out : Text} {insertions : List Insertion} (h : applyInsertions t insertions = .ok out)

include h

/-- What stands behind a character and before the next one. -/
lemma drop_movedTo (hlt : place < t.length) :
    out.drop (movedTo insertions place) =
      t[place] :: Text.interleave (pieceAt (inPlaceOrder insertions)) (place + 1) (t.drop (place + 1)) := by
  have hnonneg : ∀ i ∈ inPlaceOrder insertions, 0 ≤ i.position :=
    fun i hi => ((applyInsertions_eq_ok h).1 i hi).1
  have hmoved : movedTo insertions place =
      place + ((List.range place).map fun p => (pieceAt (inPlaceOrder insertions) p).length).sum +
        (pieceAt (inPlaceOrder insertions) place).length := by
    have hsum := sum_length_pieceAt hnonneg place
    have hperm := (((inPlaceOrder_perm insertions).filter fun i => i.position ≤ (place : Int)).map
      fun i => i.text.length).sum_nat
    rw [range_succ, map_append, sum_append, map_singleton, sum_singleton] at hsum
    rw [movedTo, ← hperm, ← hsum, add_assoc]
  rw [hmoved, ← drop_drop, applyInsertions_eq_interleave h, Text.drop_interleave _ t hlt.le,
    drop_eq_getElem_cons hlt, Text.interleave, drop_left]

/-- **A character is found again** where it has moved to. -/
theorem getElem?_movedTo (hlt : place < t.length) : out[movedTo insertions place]? = some t[place] := by
  rw [← add_zero (movedTo insertions place), ← getElem?_drop, drop_movedTo h hlt]
  rfl

/-- **The only insertion between two characters.**

**Proof sketch.** Behind the first character the text goes on up to the insertion, and from there to the
second character. That character and what follows are also found where the second character has moved
to, so what comes before is all that stands between the two. -/
theorem slice_movedTo {first last : Nat} (hfirst : first < place) (hlast : place ≤ last)
    (hlen : last < t.length) (hsole : insertionsAt insertions place = [i])
    (hnone : ∀ p, first < p → p ≤ last → p ≠ place → insertionsAt insertions p = []) :
    out.slice (movedTo insertions first + 1) (movedTo insertions last) =
      t.slice (first + 1) place ++ i.text ++ t.slice place last := by
  have hperm : ∀ p, (insertionsAt (inPlaceOrder insertions) p).Perm (insertionsAt insertions p) :=
    fun p => (inPlaceOrder_perm insertions).filter _
  set pieces := pieceAt (inPlaceOrder insertions) with hpieces
  have hpiece : pieces place = i.text := by
    have hone := hperm place
    rw [hsole, perm_singleton] at hone
    simp [hpieces, pieceAt, hone]
  have hempty : ∀ p, first < p → p ≤ last → p ≠ place → pieces p = [] := by
    intro p hp hp' hne
    have hzero := hperm p
    rw [hnone p hp hp' hne, perm_nil] at hzero
    simp [hpieces, pieceAt, hzero]
  -- The pieces without the insertion.
  let others : Nat → Text := fun p => if p = place then [] else pieces p
  have hbehind : out.drop (movedTo insertions first + 1) =
      t.slice (first + 1) place ++ (i.text ++ (t.slice place last ++
        t[last] :: Text.interleave pieces (last + 1) (t.drop (last + 1)))) := by
    have hskip : ∀ p, first + 1 ≤ p → p < place → pieces p = [] :=
      fun p hp hp' => hempty p hp (hp'.le.trans hlast) hp'.ne
    have hhere : pieces place = i.text ++ others place := by simp [others, hpiece]
    have hafter : ∀ p, place < p → pieces p = others p := fun p hp => by simp [others, hp.ne']
    have hskip' : ∀ p, place ≤ p → p ≤ last → others p = [] := by
      intro p hp hp'
      by_cases hplace : p = place
      · simp [others, hplace]
      · simp [others, hplace, hempty p (hfirst.trans_le hp) hp' hplace]
    rw [← drop_drop, drop_movedTo h (by omega), drop_one, tail_cons,
      Text.interleave_skip t hfirst (by omega) hskip,
      Text.interleave_prepend hhere hafter,
      Text.interleave_skip t hlast hlen.le fun p hp hp' => hskip' p hp hp'.le,
      drop_eq_getElem_cons hlen, Text.interleave, hskip' last hlast le_rfl, nil_append,
      Text.interleave_congr fun p hp => (hafter p (hlast.trans_lt hp)).symm]
  have hrest : out.drop (movedTo insertions last) =
      t[last] :: Text.interleave pieces (last + 1) (t.drop (last + 1)) := drop_movedTo h hlen
  have hlength := congrArg List.length hrest
  have hlength' := congrArg List.length hbehind
  simp only [length_drop, length_cons, length_append] at hlength hlength'
  rw [Text.slice_eq_take_drop, hbehind, ← append_assoc, ← append_assoc]
  refine take_left' ?_
  simp only [length_append]
  omega

end Moved

end Phrasebook
