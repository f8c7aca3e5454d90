import Phrasebook.Proofs.Edit.Patch

/-!
# Nothing outside of the spans is touched

A replacement fills its span as it is, or without the comment that ends it, or with that comment
kept in its place. Each comment that is not kept is a blank, the comment and at most a line end,
somewhere in the result.

## Main results

* `settle_keeps_or_moves` — what one replacement does.
* `applyChanges_outside_spans` — without moved comments the result is the text outside of the spans with
  what fills the spans.
-/

namespace Phrasebook

open List

variable {code front : Text} {kept splices : List Splice} {notes : List Text}

/-! ## Texts put into a text -/

/-- `Interspersed notes base out`: the text `out` is `base` with the texts `notes` put into it, in
their order. -/
inductive Interspersed : List Text → Text → Text → Prop where
  | nil : Interspersed [] [] []
  /-- A character of the text itself. -/
  | keep {notes : List Text} {base out : Text} (c : CodePoint) :
    Interspersed notes base out → Interspersed notes (c :: base) (c :: out)
  /-- A text that was put in. -/
  | note {notes : List Text} {base out : Text} (n : Text) :
    Interspersed notes base out → Interspersed (n :: notes) base (n ++ out)

namespace Interspersed

variable {notes : List Text} {base out : Text}

/-- What stands before the place of the first text put in. -/
lemma append_left (h : Interspersed notes base out) (front : Text) :
    Interspersed notes (front ++ base) (front ++ out) := by
  induction front with
  | nil => exact h
  | cons c front ih => exact ih.keep c

lemma refl (t : Text) : Interspersed [] t t := by
  simpa using nil.append_left t

/-- **A scan passes nothing that was put in**, if all that was put in are comments behind a blank:
what it passes belongs to the text itself.

**Proof sketch.** Induction on what is passed. Where a comment has been put in, the scan would pass
its blank and then meet its slash, at which no scan goes on. -/
theorem under_scan {skipped rest : Text} {needsLineEnd : Bool}
    (hscan : Passes skipped rest needsLineEnd) (hfront : front <+: rest)
    (hnotes : ∀ n ∈ notes, ∃ more, n = .scalar ' ' :: .scalar '/' :: more)
    (h : Interspersed notes base (skipped ++ front)) :
    ∃ base', base = skipped ++ base' ∧ Interspersed notes base' front := by
  induction hscan generalizing base with
  | textEnd => exact ⟨base, rfl, h⟩
  | lineEnd => exact ⟨base, rfl, h⟩
  | comma rest =>
    generalize hout : [CodePoint.scalar ','] ++ front = out at h
    cases h with
    | nil => simp at hout
    | keep c h' =>
      obtain ⟨rfl, rfl⟩ := List.cons.inj hout
      exact ⟨_, rfl, h'⟩
    | note n h' =>
      obtain ⟨more, rfl⟩ := hnotes n mem_cons_self
      simp at hout
  | @pass c skipped rest needsLineEnd hc hscan ih =>
    generalize hout : c :: skipped ++ front = out at h
    cases h with
    | nil => simp at hout
    | keep c' h' =>
      obtain ⟨rfl, rfl⟩ := List.cons.inj hout
      obtain ⟨base', rfl, hrest⟩ := ih hfront h'
      exact ⟨base', rfl, hrest⟩
    | note n h' =>
      obtain ⟨more, rfl⟩ := hnotes n mem_cons_self
      obtain ⟨tail, rfl⟩ := hfront
      have hslash := congrArg (· ++ tail) (List.cons.inj hout).2
      exact (hscan.not_slash (by simpa using hslash)).elim

/-- Where nothing has been put in, nothing has changed. -/
lemma eq_of_nil (h : Interspersed [] base out) : out = base := by
  generalize hnotes : ([] : List Text) = notes at h
  induction h with
  | nil => rfl
  | keep c _ ih => rw [ih hnotes]
  | note => cases hnotes

end Interspersed

/-- `Headed notes base out`: the text `out` is `base` with the texts `notes` put into it, and none of
them stands before the first character of `base`. -/
inductive Headed : List Text → Text → Text → Prop where
  | nil : Headed [] [] []
  /-- A character, and the rest with texts put in. -/
  | cons {notes : List Text} {base out : Text} (c : CodePoint) :
    Interspersed notes base out → Headed notes (c :: base) (c :: out)

namespace Headed

variable {notes : List Text} {base out : Text}

lemma interspersed (h : Headed notes base out) : Interspersed notes base out := by
  cases h with
  | nil => exact .nil
  | cons c h => exact h.keep c

/-- Whatever is put in, it stands behind a part that is not empty. -/
lemma of_interspersed (hfront : front ≠ []) (h : Interspersed notes base out) :
    Headed notes (front ++ base) (front ++ out) := by
  cases front with
  | nil => exact absurd rfl hfront
  | cons c front => exact .cons c (h.append_left front)

lemma append_left (h : Headed notes base out) (front : Text) :
    Headed notes (front ++ base) (front ++ out) := by
  by_cases hfront : front = []
  · rw [hfront]
    exact h
  · exact .of_interspersed hfront h.interspersed

lemma refl (t : Text) : Headed [] t t := by
  simpa using nil.append_left t

end Headed

/-! ## What fills the spans -/

/-- What may fill the span of a replacement that keeps its comment, if it has one: the replacement
itself, or its code with the comment behind it, as a line comment or as a block comment. -/
def Keeps (replacement text : Text) : Prop :=
  (splitLineComment replacement = none ∧ text = replacement) ∨
    ∃ code comment, splitLineComment replacement = some (code, comment) ∧
      (text = code ++ (" " ++ comment) ∨ text = code ++ blockForm comment)

/-- `Settled splices kept notes`: the replacements `kept` fill the spans of `splices`, and `notes`
are the comments that have moved away from them, in order. -/
inductive Settled : List Splice → List Splice → List Text → Prop where
  | nil : Settled [] [] []
  /-- A replacement that keeps its comment. -/
  | keep {splices kept : List Splice} {notes : List Text} (s : Splice) {text : Text} :
    Keeps s.text text → Settled splices kept notes →
      Settled (s :: splices) (⟨s.start, s.stop, text⟩ :: kept) notes
  /-- A replacement whose code alone fills the span: the comment has moved away, behind a blank and
  with or without a line end behind it. -/
  | move {splices kept : List Splice} {notes : List Text} (s : Splice)
    {code comment lineEnd : Text} :
    splitLineComment s.text = some (code, comment) → lineEnd ∈ ([[], "\n", "\r\n"] : List Text) →
      Settled splices kept notes →
      Settled (s :: splices) (⟨s.start, s.stop, code⟩ :: kept) ((" " ++ comment ++ lineEnd) :: notes)

/-- Comments that have moved begin with a blank and a slash. -/
lemma Settled.blank_slash (h : Settled splices kept notes) :
    ∀ n ∈ notes, ∃ more, n = .scalar ' ' :: .scalar '/' :: more := by
  induction h with
  | nil => simp
  | keep _ _ _ ih => exact ih
  | move _ hsplit _ _ ih =>
    intro n hn
    rcases mem_cons.mp hn with rfl | hn
    · obtain ⟨⟨u, rfl⟩, -⟩ := splitLineComment_slashes hsplit
      exact ⟨_, rfl⟩
    · exact ih n hn

/-- Where nothing is split off, the replacements themselves fill the spans. -/
lemma Settled.eq_of_forall_none
    (h : Settled splices kept notes) (hnone : ∀ s ∈ splices, splitLineComment s.text = none) :
    kept = splices ∧ notes = [] := by
  induction h with
  | nil => exact ⟨rfl, rfl⟩
  | keep s hkeeps _ ih =>
    obtain ⟨rfl, rfl⟩ := ih fun s' hs' => hnone s' (mem_cons_of_mem _ hs')
    have hs := hnone s mem_cons_self
    rcases hkeeps with ⟨-, rfl⟩ | ⟨code, comment, hsplit, -⟩
    · exact ⟨rfl, rfl⟩
    · simp [hs] at hsplit
  | move s hsplit _ _ _ =>
    simp [hnone s mem_cons_self] at hsplit

/-- `Sheds replacement code note`: without the comment that ends it a replacement is `code`, and `note` is
that comment behind a blank, with or without a line end behind it. -/
def Sheds (replacement code note : Text) : Prop :=
  ∃ comment lineEnd, splitLineComment replacement = some (code, comment) ∧
    lineEnd ∈ ([[], "\n", "\r\n"] : List Text) ∧ note = " " ++ comment ++ lineEnd

/-- A comment that is split off is shed. -/
lemma sheds_of_split {replacement comment : Text}
    (h : splitLineComment replacement = some (code, comment)) (needsLineEnd : Bool) (t : Text) :
    Sheds replacement code (" " ++ comment ++ if needsLineEnd then t.newline else []) := by
  refine ⟨comment, _, h, ?_, rfl⟩
  rw [Text.newline]
  split_ifs <;> simp

/-- A replacement whose comment has moved away. -/
lemma Settled.shed (h : Settled splices kept notes)
    (s : Splice) {note : Text} (hsheds : Sheds s.text code note) :
    Settled (s :: splices) (⟨s.start, s.stop, code⟩ :: kept) (note :: notes) := by
  obtain ⟨comment, lineEnd, hsplit, hend, rfl⟩ := hsheds
  exact h.move s hsplit hend

/-- `Moves replacement following code note skipped rest`: the comment of a replacement goes behind `skipped`,
the part that the scan passes of the text that follows. -/
structure Moves (replacement following code note skipped rest : Text) : Prop where
  sheds : Sheds replacement code note
  ne_nil : skipped ≠ []
  following_eq : following = skipped ++ rest
  scan : ∃ needsLineEnd, Passes skipped rest needsLineEnd

/-- **A replacement keeps its comment or moves it**: what it keeps is put before the text that
follows, and what moves goes behind what the scan passes of that text. -/
theorem settle_keeps_or_moves (t replacement following : Text) :
    (∃ text, Keeps replacement text ∧
      settle t.newline replacement following = text ++ following) ∨
    ∃ code note skipped rest, Moves replacement following code note skipped rest ∧
      settle t.newline replacement following = code ++ (skipped ++ (note ++ rest)) := by
  rcases settle_cases t replacement following with
    ⟨hnone, hout⟩ | ⟨code, comment, hsplit, hout | ⟨skipped, rest, needs, heq, hscan, hout⟩⟩
  · exact .inl ⟨replacement, .inl ⟨hnone, rfl⟩, hout⟩
  · refine .inl ⟨_, .inr ⟨code, comment, hsplit, .inr rfl⟩, ?_⟩
    rw [hout, append_assoc]
  · by_cases hplace : skipped = []
    · subst hplace
      obtain rfl := hscan.needsLineEnd_of_nil
      refine .inl ⟨_, .inr ⟨code, comment, hsplit, .inl rfl⟩, ?_⟩
      rw [hout, heq]
      simp
    · exact .inr ⟨code, _, skipped, rest, ⟨sheds_of_split hsplit needs t, hplace, heq, needs, hscan⟩, hout⟩

/-! ## The result -/

/-- **The result of applying replacements** is the text with what fills the spans, interspersed with
the comments that have moved; none of them stands at its beginning.

**Proof sketch.** Induction on the replacements in order. The text behind the first span is, by the
induction hypothesis, the right one with comments put in. A comment of the first replacement that
moves goes behind what the scan passes of it, and by `Interspersed.under_scan` that is text itself,
before all the comments that are there already. -/
theorem headed_patchFrom (t : Text) (splices : List Splice) (cursor : Nat) :
    ∃ kept notes, Settled splices kept notes ∧
      Headed notes (spliceFrom t cursor kept) (patchFrom t cursor splices) := by
  induction splices generalizing cursor with
  | nil => exact ⟨[], [], .nil, .refl _⟩
  | cons s rest ih =>
    obtain ⟨kept, notes, hsettled, hrest⟩ := ih s.stop
    rw [patchFrom]
    rcases settle_keeps_or_moves (t.take s.stop ++ patchFrom t s.stop rest) s.text
      (patchFrom t s.stop rest) with
      ⟨text, hkeeps, hout⟩ | ⟨code, note, skipped, left, ⟨hsheds, hskipped, heq, _, hscan⟩, hout⟩
    · refine ⟨_, notes, hsettled.keep s hkeeps, ?_⟩
      rw [hout, spliceFrom, append_assoc]
      exact (hrest.append_left text).append_left _
    · rw [heq] at hrest
      obtain ⟨base, hbase, hleft⟩ :=
        hrest.interspersed.under_scan hscan (prefix_refl left) hsettled.blank_slash
      refine ⟨_, _, hsettled.shed s hsheds, ?_⟩
      rw [hout, spliceFrom, append_assoc (t.slice cursor s.start), hbase]
      exact ((Headed.of_interspersed hskipped (hleft.note _)).append_left code).append_left _

/-- The result is the text with its spans filled, and comments put in. -/
lemma interspersed_patchFrom (t : Text) (splices : List Splice) (cursor : Nat) :
    ∃ kept notes, Settled splices kept notes ∧
      Interspersed notes (spliceFrom t cursor kept) (patchFrom t cursor splices) := by
  obtain ⟨kept, notes, hsettled, hheaded⟩ := headed_patchFrom t splices cursor
  exact ⟨kept, notes, hsettled, hheaded.interspersed⟩

/-- **Nothing outside of the spans is touched.** Changes with spans that are not empty and that are
accepted can be applied, in whatever order they are listed. If no replacement ends in a line
comment, the result is the text with each span replaced. In any case it is, apart from the comments
that have moved, the text with each span filled by its replacement, by the code of it, or by that
code with the comment behind it. -/
theorem applyChanges_outside_spans (t : Text) (changes : List Change) (anchors : List Int)
    (hspans : ∀ c ∈ changes, c.IsAnchored) (hvalid : validate t changes = .ok ()) :
    ∃ out moved, applyChanges t changes anchors = .ok (out, moved) ∧
      ((∀ c ∈ changes, splitLineComment c.replacement = none) →
        out = spliceFrom t 0 ((sortChanges changes).map Change.splice)) ∧
      ∃ kept notes, Settled ((sortChanges changes).map Change.splice) kept notes ∧
        Interspersed notes (spliceFrom t 0 kept) out := by
  obtain ⟨moved, hout⟩ := applyChanges_eq_patchFrom hspans hvalid anchors
  obtain ⟨kept, notes, hsettled, hkept⟩ :=
    interspersed_patchFrom t ((sortChanges changes).map Change.splice) 0
  refine ⟨_, moved, hout, ?_, kept, notes, hsettled, hkept⟩
  intro hnone
  have hsplices : ∀ s ∈ (sortChanges changes).map Change.splice, splitLineComment s.text = none := by
    intro s hs
    obtain ⟨c, hc, rfl⟩ := mem_map.mp hs
    exact hnone c ((sortAscending_perm _ changes).mem_iff.mp hc)
  obtain ⟨rfl, rfl⟩ := hsettled.eq_of_forall_none hsplices
  exact hkept.eq_of_nil

/-- Two calls in the arguments of a third, listed from the last: the comment of the first goes behind
the comma and that of the second behind the bracket. -/
theorem applyChanges_outside_spans_call :
    let t : Text := "f(a, b)\n"
    let changes := [Change.make t "f.js" 5 6 "y // B", Change.make t "f.js" 2 3 "x // A"]
    (∀ c ∈ changes, c.IsAnchored) ∧ validate t changes = .ok () ∧
      ∃ kept notes, Settled [⟨2, 3, "x // A"⟩, ⟨5, 6, "y // B"⟩] kept notes ∧
        Interspersed notes (spliceFrom t 0 kept) "f(x, // A\n y) // B\n" := by
  intro t changes
  have hspans : ∀ c ∈ changes, c.IsAnchored := by
    simp only [changes, forall_mem_cons, not_mem_nil, false_imp_iff, implies_true, and_true]
    exact ⟨Change.isAnchored_make t _ _ (by decide), Change.isAnchored_make t _ _ (by decide)⟩
  have hvalid : validate t changes = .ok () := by rfl
  obtain ⟨out, moved, hout, -, kept, notes, hsettled, hkept⟩ :=
    applyChanges_outside_spans t changes [] hspans hvalid
  have heq : applyChanges t changes [] = .ok ("f(x, // A\n y) // B\n", []) := by rfl
  obtain ⟨rfl, -⟩ := Prod.mk.inj (Except.ok.inj (hout.symm.trans heq))
  exact ⟨hspans, hvalid, kept, notes, hsettled, hkept⟩

end Phrasebook
