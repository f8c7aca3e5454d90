import Phrasebook.Proofs.Edit.Outside

/-!
# A line comment hides no code

What stands in front of the comment of a replacement is the text up to the span, with the earlier spans
filled, and then the code of the replacement; a line comment may also have gone behind brackets,
semicolons and a comma. Comments of earlier replacements may have come into that, even between the code of
a replacement and its block comment (`blockForm_apart_from_code`), but never behind a line comment.

## Main results

* `applyChanges_hides_no_code` — the comment that a replacement ends in is in the result as a block comment
  or as a line comment with nothing behind it on its line.
-/

namespace Phrasebook

open List

variable {code comment skipped tail : Text}

/-- `Shown comment skipped tail`: the text `tail` begins with a comment, and `skipped` stands between
the code that the comment belongs to and the comment. A block comment directly follows the code and
ends where it was meant to; behind a line comment nothing but blanks follows on its line. -/
inductive Shown (comment : Text) : Text → Text → Prop where
  | block {rest : Text} :
    blockCommentLength? ((blockForm comment ++ rest).drop 1) = some ((blockForm comment).length - 1) →
      Shown comment [] (blockForm comment ++ rest)
  | line {skipped rest : Text} :
    (skipped.all fun c => isSpaceOrTab c || isCloser c || c == ',') →
      comment.any isLineEnd = false → EndsLine rest → Shown comment skipped (" " ++ comment ++ rest)

/-- A comment is shown behind a blank, and begins with a slash. -/
lemma Shown.blank_slash {u : Text}
    (hcomment : comment = .scalar '/' :: .scalar '/' :: u) (h : Shown comment skipped tail) :
    ∃ more, tail = .scalar ' ' :: .scalar '/' :: more := by
  cases h with
  | block _ => exact ⟨_, rfl⟩
  | line _ _ _ => exact ⟨_, by rw [hcomment]; rfl⟩

/-- How a replacement shows its comment when it is settled. -/
lemma shown_settle (t following : Text) {replacement : Text}
    (h : splitLineComment replacement = some (code, comment)) :
    ∃ skipped tail, settle t.newline replacement following = code ++ skipped ++ tail ∧
      Shown comment skipped tail := by
  rcases settle_cases t replacement following with
    ⟨hnone, -⟩ | ⟨code', comment', hsplit, hout | ⟨skipped, rest, needs, -, hscan, hout⟩⟩
  · simp [h] at hnone
  · obtain ⟨rfl, rfl⟩ := Prod.mk.inj (Option.some.inj (h.symm.trans hsplit))
    refine ⟨[], _, by rw [hout, append_nil], .block ?_⟩
    simpa [blockForm, Text.ofString] using
      blockCommentLength?_blockComment (Text.trim (comment.drop 2)) following
  · obtain ⟨rfl, rfl⟩ := Prod.mk.inj (Option.some.inj (h.symm.trans hsplit))
    refine ⟨skipped, _, ?_, .line hscan.all_passed (splitLineComment_slashes h).2 (hscan.endsLine t)⟩
    rw [hout]
    simp only [append_assoc]

/-- A comment put in behind what a scan passes leaves a later comment shown: it comes into what
stands in front of that one. -/
lemma Interspersed.note_in_front {notes : List Text} {base front rest more : Text}
    {needsLineEnd : Bool} (n : Text) (hscan : Passes skipped rest needsLineEnd)
    (hnotes : ∀ n ∈ notes, ∃ more, n = .scalar ' ' :: .scalar '/' :: more)
    (htail : tail = .scalar ' ' :: .scalar '/' :: more) (heq : skipped ++ rest = front ++ tail)
    (h : Interspersed notes base front) :
    ∃ front', skipped ++ (n ++ rest) = front' ++ tail ∧ Interspersed (n :: notes) base front' := by
  -- the scan has ended before the later comment
  obtain ⟨behind, rfl⟩ := hscan.prefix_of_comment (htail ▸ heq)
  have hrest : rest = behind ++ tail := by simpa using heq
  obtain ⟨base', rfl, hbehind⟩ := h.under_scan hscan (hrest ▸ prefix_append behind tail) hnotes
  refine ⟨skipped ++ (n ++ behind), by simp [hrest], ?_⟩
  exact (hbehind.note n).append_left skipped

/-- **How the comment of each replacement is in the result.**

**Proof sketch.** Induction on the replacements before it. When the first of them is settled, the
comment is shown in the text behind it already. A comment that moves goes in front of it, by
`Interspersed.note_in_front`, so what follows it on its line stays the same. -/
theorem shown_patchFrom (t : Text) (earlier later : List Splice) (s : Splice) (cursor : Nat)
    (hord : InOrder t.length cursor (earlier ++ s :: later))
    (hsplit : splitLineComment s.text = some (code, comment)) :
    ∃ kept notes skipped front tail, Settled earlier kept notes ∧
      patchFrom t cursor (earlier ++ s :: later) = front ++ tail ∧ Shown comment skipped tail ∧
      Interspersed notes (spliceFrom (t.take s.start) cursor kept ++ code ++ skipped)
        front := by
  induction earlier generalizing cursor with
  | nil =>
    obtain ⟨skipped, tail, hout, hshown⟩ :=
      shown_settle (t.take s.stop ++ patchFrom t s.stop later) (patchFrom t s.stop later) hsplit
    refine ⟨[], [], skipped, _, tail, .nil, ?_, hshown, .refl _⟩
    rw [nil_append, patchFrom, hout, spliceFrom, Text.slice]
    simp only [append_assoc]
  | cons e earlier ih =>
    obtain ⟨hstart, hlt, hrest⟩ := hord
    obtain ⟨kept, notes, skipped, front, tail, hsettled, hpatch, hshown, hfront⟩ := ih e.stop hrest
    have hgap : Text.slice (t.take s.start) cursor e.start = t.slice cursor e.start := by
      have hle := hrest.cursor_le_start
      rw [Text.slice, Text.slice, take_take, min_eq_left (by omega)]
    rw [cons_append, patchFrom]
    rcases settle_keeps_or_moves (t.take e.stop ++ patchFrom t e.stop (earlier ++ s :: later)) e.text
      (patchFrom t e.stop (earlier ++ s :: later)) with
      ⟨text, hkeeps, hout⟩ |
        ⟨code', note, passed, left, ⟨hsheds, -, heq, _, hscan⟩, hout⟩
    · refine ⟨_, notes, skipped, t.slice cursor e.start ++ (text ++ front), tail,
        hsettled.keep e hkeeps, ?_, hshown, ?_⟩
      · rw [hout, hpatch]
        simp only [append_assoc]
      · rw [spliceFrom, hgap]
        simpa only [append_assoc] using (hfront.append_left text).append_left _
    · -- the comment of the earlier replacement goes in front of this one
      obtain ⟨⟨u, hslashes⟩, -⟩ := splitLineComment_slashes hsplit
      obtain ⟨more, hmore⟩ := hshown.blank_slash hslashes
      obtain ⟨front', hmoved, hfront'⟩ := hfront.note_in_front note hscan hsettled.blank_slash hmore
        (heq.symm.trans hpatch)
      refine ⟨_, _, skipped, t.slice cursor e.start ++ (code' ++ front'), tail,
        hsettled.shed e hsheds, ?_, hshown, ?_⟩
      · rw [hout, hmoved]
        simp only [append_assoc]
      · rw [spliceFrom, hgap]
        simpa only [append_assoc] using (hfront'.append_left code').append_left _

/-- **A line comment hides no code.** Changes with spans that are not empty and that are accepted
can be applied, in whatever order they are listed. The comment that a replacement ends in is shown
in the result as a block comment that is closed where it should be, or as a line comment with nothing
behind it on its line. In front of it stands the text up to the span, with the earlier spans filled,
and the code of the replacement, interspersed with those comments of earlier replacements that have
moved; nothing else comes between the code and a block comment. -/
theorem applyChanges_hides_no_code (t : Text) (changes : List Change) (anchors : List Int)
    (hspans : ∀ c ∈ changes, c.IsAnchored) (hvalid : validate t changes = .ok ()) :
    ∃ out moved, applyChanges t changes anchors = .ok (out, moved) ∧
      ∀ c ∈ changes, ∀ code comment, splitLineComment c.replacement = some (code, comment) →
        ∃ earlier later kept notes skipped front tail,
          sortChanges changes = earlier ++ c :: later ∧
          Settled (earlier.map Change.splice) kept notes ∧
          out = front ++ tail ∧ Shown comment skipped tail ∧
          Interspersed notes
            (spliceFrom (t.take c.splice.start) 0 kept ++ code ++ skipped) front := by
  obtain ⟨moved, hout⟩ := applyChanges_eq_patchFrom hspans hvalid anchors
  refine ⟨_, moved, hout, ?_⟩
  intro c hc code comment hsplit
  have hmem : c ∈ sortChanges changes := (sortAscending_perm _ changes).mem_iff.mpr hc
  obtain ⟨earlier, later, hsorted⟩ := append_of_mem hmem
  have hord := inOrder_sortChanges hspans hvalid
  rw [hsorted, map_append, map_cons] at hord
  obtain ⟨kept, notes, skipped, front, tail, hsettled, hpatch, hshown, hfront⟩ :=
    shown_patchFrom t _ _ c.splice 0 hord hsplit
  refine ⟨earlier, later, kept, notes, skipped, front, tail, hsorted, hsettled, ?_, hshown, hfront⟩
  rw [← hpatch, hsorted, map_append, map_cons]

/-- Two comments on one line, listed from the last. The first has a comma to go behind, and the
second turns into a block comment. -/
theorem applyChanges_hides_no_code_call :
    let t : Text := "f(a, b) + c"
    let changes := [Change.make t "f.js" 5 6 "y // B", Change.make t "f.js" 2 3 "x // A"]
    (∀ c ∈ changes, c.IsAnchored) ∧ validate t changes = .ok () ∧
      splitLineComment "y // B" = some (Text.ofString "y", Text.ofString "// B") ∧
      ∃ earlier later kept notes skipped front tail,
        sortChanges changes = earlier ++ Change.make t "f.js" 5 6 "y // B" :: later ∧
        Settled (earlier.map Change.splice) kept notes ∧
        ("f(x, // A\n y /* B */) + c" : Text) = front ++ tail ∧ Shown "// B" skipped tail ∧
        Interspersed notes
          (spliceFrom "f(a, " 0 kept ++ Text.ofString "y" ++ skipped) front := by
  intro t changes
  have hspans : ∀ c ∈ changes, c.IsAnchored := by
    simp only [changes, forall_mem_cons, not_mem_nil, false_imp_iff, implies_true, and_true]
    exact ⟨Change.isAnchored_make t _ _ (by decide), Change.isAnchored_make t _ _ (by decide)⟩
  have hvalid : validate t changes = .ok () := by rfl
  have hsplit : splitLineComment "y // B" = some (Text.ofString "y", Text.ofString "// B") := by rfl
  obtain ⟨out, moved, hout, hall⟩ := applyChanges_hides_no_code t changes [] hspans hvalid
  have heq : applyChanges t changes [] = .ok ("f(x, // A\n y /* B */) + c", []) := by rfl
  obtain ⟨rfl, -⟩ := Prod.mk.inj (Except.ok.inj (hout.symm.trans heq))
  exact ⟨hspans, hvalid, hsplit, hall _ mem_cons_self _ _ hsplit⟩

/-- A comment of an earlier replacement may come between the code of a replacement and its block
comment: the code here is a comma, and the earlier comment goes behind it. -/
theorem blockForm_apart_from_code :
    let t : Text := "a b c"
    let changes := [Change.make t "f.js" 0 1 "x // Z", Change.make t "f.js" 2 3 ", // A"]
    let out : Text := "x , // Z\n /* A */ c"
    (∀ c ∈ changes, c.IsAnchored) ∧ validate t changes = .ok () ∧
      splitLineComment ", // A" = some (Text.ofString ",", Text.ofString "// A") ∧
      applyChanges t changes [] = .ok (out, []) ∧
      out.has (Text.ofString "," ++ blockForm "// A") = false ∧ out.has "// A" = false := by
  intro t changes out
  refine ⟨?_, by rfl, by rfl, by rfl, by rfl, by rfl⟩
  simp only [changes, forall_mem_cons, not_mem_nil, false_imp_iff, implies_true, and_true]
  exact ⟨Change.isAnchored_make t _ _ (by decide), Change.isAnchored_make t _ _ (by decide)⟩

end Phrasebook
