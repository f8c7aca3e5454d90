import Phrasebook.Proofs.Edit.LineComment
import Phrasebook.Proofs.Edit.Validation
import Phrasebook.Proofs.Edit.Weave

/-!
# Applying changes, read from the front

Changes are applied from the last to the first, each to a text that the later ones have rewritten. The
comment of a replacement may go into that text, but nothing before the span is touched.

## Main results

* `applySplices_planSplices` — one replacement, settled in front of what follows.
* `applyChanges_eq` — the result is a recursion over the changes in order: what stands before a span is
  kept, and the replacement is settled in front of what has become of the rest.
-/

namespace Phrasebook

open List Text

variable {changes : List Change} {t : Text}

/-! ## One change -/

/-- Where a comment can go is counted from where the scan begins. -/
lemma placementFrom_eq_map (offset : Nat) (t : Text) :
    placementFrom offset t = (placementFrom 0 t).map fun p => (offset + p.1, p.2) := by
  induction t generalizing offset with
  | nil => rfl
  | cons c rest ih =>
    simp only [placementFrom]
    split_ifs
    · rw [ih (offset + 1), ih (0 + 1), Option.map_map]
      congr 1
      funext p
      simp only [Function.comp_apply, Nat.zero_add, Nat.add_assoc]
    · rfl
    · simp
    · rfl

/-- Where a comment can go behind a place of a text is found in what follows the place. -/
lemma commentPlacement_append (before following : Text) :
    commentPlacement (before ++ following) before.length =
      (placementFrom 0 following).map fun p => (before.length + p.1, p.2) := by
  rw [commentPlacement]
  split_ifs with hend
  · have hnil : following = [] := by
      rw [length_append] at hend
      exact length_eq_zero_iff.mp (by omega)
    simp [hnil, placementFrom]
  · rw [drop_left, placementFrom_eq_map]

/-- A comment that goes where the scan begins needs no line end. -/
lemma not_needsLineEnd_of_placementFrom {needsLineEnd : Bool}
    (h : placementFrom 0 t = some (0, needsLineEnd)) : needsLineEnd = false := by
  cases t with
  | nil => simpa [placementFrom] using h.symm
  | cons c rest =>
    simp only [placementFrom] at h
    split_ifs at h
    · rw [placementFrom_eq_map, Option.map_eq_some_iff] at h
      obtain ⟨p, -, hp⟩ := h
      simp at hp
    · simpa using h.symm
    · simp at h

/-- A replacement in front of the text that follows it. Its comment goes where nothing follows, and
becomes a block comment if there is no such place. -/
def settle (newline replacement following : Text) : Text :=
  match splitLineComment replacement with
  | none => replacement ++ following
  | some (code, comment) =>
    match placementFrom 0 following with
    | none => code ++ (blockForm comment ++ following)
    | some (skipped, needsLineEnd) =>
      code ++ (following.take skipped
        ++ (" " ++ comment ++ (if needsLineEnd then newline else []) ++ following.drop skipped))

/-- What settling a replacement can do. It is put before the text as it is, or its comment turns
into a block comment, or the comment goes behind what the scan passes. -/
lemma settle_cases (t replacement following : Text) :
    (splitLineComment replacement = none ∧
      settle t.newline replacement following = replacement ++ following) ∨
    ∃ code comment, splitLineComment replacement = some (code, comment) ∧
      (settle t.newline replacement following = code ++ (blockForm comment ++ following) ∨
      ∃ skipped rest needsLineEnd, following = skipped ++ rest ∧ Passes skipped rest needsLineEnd ∧
        settle t.newline replacement following =
          code ++ (skipped ++ (" " ++ comment ++ (if needsLineEnd then t.newline else []) ++ rest))) := by
  rw [settle]
  cases hsplit : splitLineComment replacement with
  | none => exact .inl ⟨rfl, rfl⟩
  | some split =>
    obtain ⟨code, comment⟩ := split
    refine .inr ⟨code, comment, rfl, ?_⟩
    cases hfound : placementFrom 0 following with
    | none => exact .inl rfl
    | some place =>
      obtain ⟨skipped, needsLineEnd⟩ := place
      exact .inr ⟨_, _, needsLineEnd, (take_append_drop skipped following).symm,
        (passes_of_placementFrom hfound).2, rfl⟩

/-- A text with replacements made one after the other, and offsets moved with them. -/
def applySplices (splices : List Splice) (state : Text × List Int) : Text × List Int :=
  splices.foldl (fun (t, anchors) s => (s.apply t, anchors.map s.move)) state

/-- Where an offset moves when replacements are made one after the other. -/
def moveAll (splices : List Splice) (anchor : Int) : Int :=
  splices.foldl (fun anchor s => s.move anchor) anchor

lemma applySplices_snd (splices : List Splice) (t : Text) (anchors : List Int) :
    (applySplices splices (t, anchors)).2 = anchors.map (moveAll splices) := by
  induction splices generalizing t anchors with
  | nil => exact (map_id _).symm
  | cons s rest ih =>
    rw [applySplices, foldl_cons, ← applySplices, ih, map_map]
    rfl

/-- **What one change makes of a text** whose part behind the span has been rewritten already: the
replacement is settled in front of that part, and what stands before the span stays. -/
theorem applySplices_planSplices (t following replacement : Text) (anchors : List Int) {start stop : Nat}
    (h : start ≤ stop) (hstop : stop ≤ t.length) :
    (applySplices (planSplices (t.take stop ++ following) start stop replacement)
      (t.take stop ++ following, anchors)).1 =
        t.take start ++ settle (Text.newline (t.take stop ++ following)) replacement following := by
  have hlen : (t.take stop).length = stop := length_take_of_le hstop
  have hplace := commentPlacement_append (t.take stop) following
  rw [hlen] at hplace
  rw [applySplices, planSplices, settle]
  cases splitLineComment replacement with
  | none => exact splice_eq t replacement following h hstop
  | some split =>
    obtain ⟨code, comment⟩ := split
    simp only [hplace]
    cases hfound : placementFrom 0 following with
    | none =>
      simp only [Option.map_none, foldl_cons, foldl_nil, Splice.apply]
      rw [splice_eq t _ following h hstop]
      simp [blockForm, blockComment, Text.ofString]
    | some place =>
      obtain ⟨skipped, needsLineEnd⟩ := place
      by_cases hzero : skipped = 0
      · subst hzero
        obtain rfl := not_needsLineEnd_of_placementFrom hfound
        simp only [Option.map_some, Nat.add_zero, if_true, foldl_cons, foldl_nil,
          Splice.apply]
        rw [splice_eq t _ following h hstop]
        simp
      · have hmoved : stop + skipped ≠ stop := by omega
        have hinsert := splice_append_right (t.take stop) following
          (" " ++ comment ++ if needsLineEnd then Text.newline (t.take stop ++ following) else [])
          skipped
        rw [hlen] at hinsert
        simp only [Option.map_some, hmoved, if_false, foldl_cons, foldl_nil, Splice.apply]
        rw [hinsert, splice_eq t code _ h hstop]

/-! ## All changes -/

/-- The text from `cursor` on, with replacements made that are given in order: each is settled in
front of what has become of the text behind it. -/
def patchFrom (t : Text) : Nat → List Splice → Text
  | cursor, [] => t.drop cursor
  | cursor, s :: rest =>
    t.slice cursor s.start
      ++ settle (Text.newline (t.take s.stop ++ patchFrom t s.stop rest)) s.text
        (patchFrom t s.stop rest)

/-- Where an offset moves when replacements are made that are given in order: the first of them comes
last, and moves what the others have moved. -/
def moveFrom (t : Text) : List Splice → Int → Int
  | [], anchor => anchor
  | s :: rest, anchor =>
    moveAll (planSplices (t.take s.stop ++ patchFrom t s.stop rest) s.start s.stop s.text)
      (moveFrom t rest anchor)

/-- A change with a span is its planned replacements. -/
lemma applyChange_eq (state : Text × List Int) {c : Change} (h : c.HasSpan) :
    applyChange state c =
      .ok (applySplices (planSplices state.1 c.splice.start c.splice.stop c.splice.text) state) := by
  rw [applyChange, h.span?]
  rfl

/-- **Changes from the last to the first** leave the text before them alone and make the rest of it
what it is when read from the front.

**Proof sketch.** Induction on the changes in order. When the first one is applied, last of all,
the text behind its span is what the others have made of it, and the rest has not been touched. -/
theorem foldlM_applyChange (t : Text) (anchors : List Int) (changes : List Change) (cursor : Nat)
    (hspans : ∀ c ∈ changes, c.HasSpan)
    (hord : Follow Splice.span t.length cursor (changes.map Change.splice)) :
    changes.reverse.foldlM applyChange (t, anchors) =
      Except.ok (t.take cursor ++ patchFrom t cursor (changes.map Change.splice),
        anchors.map (moveFrom t (changes.map Change.splice))) := by
  induction changes generalizing cursor with
  | nil => simp [patchFrom, moveFrom, pure, Except.pure]
  | cons c rest ih =>
    obtain ⟨hstart, hle, hrest⟩ := hord
    simp only [Splice.span] at hstart hle hrest
    have hothers := ih c.splice.stop (fun d hd => hspans d (mem_cons_of_mem c hd)) hrest
    set moved := anchors.map (moveFrom t (rest.map Change.splice)) with hmoved
    have hone := applySplices_planSplices t (patchFrom t c.splice.stop (rest.map Change.splice))
      c.splice.text moved hle hrest.cursor_le
    set out := t.take c.splice.stop ++ patchFrom t c.splice.stop (rest.map Change.splice) with hout
    have hanchors : (applySplices (planSplices out c.splice.start c.splice.stop c.splice.text)
        (out, moved)).2 = anchors.map (moveFrom t ((c :: rest).map Change.splice)) := by
      rw [applySplices_snd, hmoved, map_map]
      rfl
    rw [map_cons, patchFrom, ← append_assoc, take_append_slice t hstart, ← hout, ← hone,
      ← map_cons, ← hanchors, reverse_cons, foldlM_append, hothers]
    simp only [foldlM_cons, foldlM_nil, bind, Except.bind, pure, Except.pure,
      applyChange_eq _ (hspans c mem_cons_self)]

/-- Changes with spans are ordered by their places. -/
lemma mapM_orderKey (table : List Nat) (hspans : ∀ c ∈ changes, c.HasSpan) :
    (changes.mapM fun c => return (c, ← c.orderKey table) : Except Failure _) =
      .ok (changes.map fun c => (c, c.placeKey)) := by
  induction changes with
  | nil => rfl
  | cons c rest ih =>
    have hkey : c.orderKey table = .ok c.placeKey := by
      obtain ⟨start, stop, hstart, -⟩ := hspans c mem_cons_self
      simp [Change.orderKey, Change.placeKey, Change.bounds, hstart]
    rw [mapM_cons, ih fun d hd => hspans d (mem_cons_of_mem c hd), hkey]
    rfl

/-- **Changes with spans that are accepted are applied one after the other**, in the order of their
keys from the last to the first. -/
theorem applyChanges_eq_foldlM (hspans : ∀ c ∈ changes, c.HasSpan)
    (hvalid : validate t changes = .ok ()) (anchors : List Int) :
    applyChanges t changes anchors =
      (sortDescending Change.placeKey changes).foldlM applyChange (t, anchors) := by
  rw [applyChanges]
  by_cases hnil : changes = []
  · subst hnil
    rfl
  · have hempty : changes.isEmpty = false := by simpa using hnil
    have hsorted : sortDescending Prod.snd (changes.map fun c => (c, c.placeKey)) =
        (sortDescending Change.placeKey changes).map fun c => (c, c.placeKey) :=
      sortStable_map _ _ changes
    simp only [hempty, Bool.false_eq_true, if_false, hvalid, mapM_orderKey _ hspans]
    exact (congrArg _ hsorted).trans foldlM_map

section Accepted

variable {t : Text} {changes : List Change} (hspans : ∀ c ∈ changes, c.IsAnchored)
  (hvalid : validate t changes = .ok ())

include hspans hvalid

/-- Accepted changes with spans that are not empty are replacements in order. -/
lemma inOrder_sortChanges : InOrder t.length 0 ((sortChanges changes).map Change.splice) := by
  have hmem : ∀ c ∈ sortChanges changes, c.IsAnchored ∧ Fits t c c.bounds := by
    intro c hc
    have hc' := (sortAscending_perm _ changes).mem_iff.mp hc
    exact ⟨hspans c hc', fits_of_validate (fun c hc => (hspans c hc).hasSpan) hvalid hc'⟩
  rw [inOrder_iff]
  refine ⟨Nat.zero_le _, ?_, ?_⟩
  · intro s hs
    obtain ⟨c, hc, rfl⟩ := mem_map.mp hs
    obtain ⟨hanch, hnonneg, -, hlen, -⟩ := hmem c hc
    have hlt := hanch.lt
    simp only [Change.splice]
    omega
  · refine pairwise_map.mpr ((pairwise_sortChanges hspans hvalid).imp ?_)
    intro a b hle
    simp only [Change.splice]
    omega

/-- **Applying accepted changes** always succeeds, and gives the text that is read from the front, with
every offset moved on its own. -/
theorem applyChanges_eq (anchors : List Int) :
    applyChanges t changes anchors =
      .ok (patchFrom t 0 ((sortChanges changes).map Change.splice),
        anchors.map (moveFrom t ((sortChanges changes).map Change.splice))) := by
  have hhas : ∀ c ∈ changes, c.HasSpan := fun c hc => (hspans c hc).hasSpan
  rw [applyChanges_eq_foldlM hhas hvalid, sortDescending_placeKey hspans hvalid]
  exact foldlM_applyChange t anchors (sortChanges changes) 0
    (fun c hc => hhas c ((sortAscending_perm _ changes).mem_iff.mp hc))
    (inOrder_sortChanges hspans hvalid).follow

/-- The text that accepted changes give, wherever offsets move. -/
lemma applyChanges_eq_patchFrom (anchors : List Int) :
    ∃ moved, applyChanges t changes anchors =
      .ok (patchFrom t 0 ((sortChanges changes).map Change.splice), moved) :=
  ⟨_, applyChanges_eq hspans hvalid anchors⟩

end Accepted

end Phrasebook
