import Phrasebook.Proofs.Edit.Outside

/-!
# Offsets follow the text

Offsets are moved change by change, each time in a text of which only the end has been rewritten, and
a change whose comment goes elsewhere moves them twice.

## Main results

* `moveFrom_lands` — an offset that lies inside of no span stands between what has become of the text
  before it and what has become of the text from it on; no comment has come between the offset and its
  character.
* `applyChanges_moves_anchors` — all offsets move in one way, which keeps their order.
-/

namespace Phrasebook

open List Option Text

variable {needsLineEnd : Bool} {x : Int} {splices after before : List Splice} {notes : List Text}
  {a cursor stop start : Nat} {back front rest skipped : Text} {c : Change}

/-! ## One change -/

lemma le_of_placementFrom {t : Text} {offset position : Nat}
    (h : placementFrom offset t = some (position, needsLineEnd)) : position ≤ offset + t.length := by
  induction t generalizing offset with
  | nil =>
    obtain ⟨rfl, -⟩ := Prod.mk.inj (some.inj h)
    exact Nat.le_refl _
  | cons c rest ih =>
    simp only [placementFrom] at h
    rw [length_cons]
    split_ifs at h
    · have hle := ih h
      omega
    · obtain ⟨rfl, -⟩ := Prod.mk.inj (some.inj h)
      omega
    · obtain ⟨rfl, -⟩ := Prod.mk.inj (some.inj h)
      omega

/-- What a change amounts to in a text whose part behind the span has been rewritten already: its
span is filled, with the comment kept if there is one; or the comment goes behind what the scan passes
of that part, and the code alone fills the span. -/
lemma planSplices_cases (t following replacement : Text) (start : Nat) (hstop : stop ≤ t.length) :
    (∃ text, Keeps replacement text ∧
      planSplices (t.take stop ++ following) start stop replacement = [⟨start, stop, text⟩]) ∨
    ∃ code note skipped rest, Moves replacement following code note skipped rest ∧
      planSplices (t.take stop ++ following) start stop replacement =
        [⟨stop + skipped.length, stop + skipped.length, note⟩, ⟨start, stop, code⟩] := by
  have hlen : (t.take stop).length = stop := length_take_of_le hstop
  have hplace := commentPlacement_append (t.take stop) following
  rw [hlen] at hplace
  rw [planSplices]
  cases hsplit : splitLineComment replacement with
  | none => exact .inl ⟨replacement, .inl ⟨hsplit, rfl⟩, rfl⟩
  | some split =>
    obtain ⟨code, comment⟩ := split
    simp only [hplace]
    cases hfound : placementFrom 0 following with
    | none =>
      refine .inl ⟨_, .inr ⟨code, comment, hsplit, .inr ?_⟩, rfl⟩
      simp [blockForm, blockComment, Text.ofString]
    | some place =>
      obtain ⟨position, needsLineEnd⟩ := place
      by_cases hzero : position = 0
      · subst hzero
        refine .inl ⟨_, .inr ⟨code, comment, hsplit, .inl ?_⟩, if_pos rfl⟩
        rw [append_assoc]
      · have hle : position ≤ following.length := by
          have hle := le_of_placementFrom hfound
          omega
        have htaken : (following.take position).length = position := length_take_of_le hle
        have hne : following.take position ≠ [] := by
          intro hnil
          rw [hnil] at htaken
          exact hzero htaken.symm
        refine .inr ⟨code, _, following.take position, following.drop position,
          ⟨sheds_of_split hsplit needsLineEnd (t.take stop ++ following), hne,
            (take_append_drop position following).symm, needsLineEnd,
            (passes_of_placementFrom hfound).2⟩, ?_⟩
        rw [htaken]
        exact if_neg (by simp only; omega)

/-- What stands before the end of the span does not move. -/
lemma moveAll_planSplices_of_lt (t following replacement : Text) (start : Nat) (hstop : stop ≤ t.length)
    (hx : x < stop) : moveAll (planSplices (t.take stop ++ following) start stop replacement) x = x := by
  rcases planSplices_cases t following replacement start hstop with
    ⟨text, -, hplan⟩ | ⟨code, note, skipped, rest, -, hplan⟩
  · rw [hplan]
    exact if_neg (by simp only; omega)
  · have hinsert : Splice.move ⟨stop + skipped.length, stop + skipped.length, note⟩ x = x :=
      if_neg (by simp only; omega)
    rw [hplan, moveAll, foldl_cons, hinsert]
    exact if_neg (by simp only; omega)

/-- **What one change makes of the text behind it, and of the offsets there.** If its comment is kept,
the offsets move as far as that text does. If the comment goes behind what the scan passes, only those
offsets make room for it that stand where the scan has ended or further behind. -/
theorem settle_moves (t following replacement : Text) (h : start ≤ stop) (hstop : stop ≤ t.length) :
    (∃ text, Keeps replacement text ∧
      settle (Text.newline (t.take stop ++ following)) replacement following = text ++ following ∧
      ∀ k : Nat, moveAll (planSplices (t.take stop ++ following) start stop replacement) (stop + k) =
        start + (text.length + k)) ∨
    ∃ code note skipped rest, Moves replacement following code note skipped rest ∧
      settle (Text.newline (t.take stop ++ following)) replacement following =
        code ++ (skipped ++ (note ++ rest)) ∧
      ∀ k : Nat, moveAll (planSplices (t.take stop ++ following) start stop replacement) (stop + k) =
        start + (code.length + k + if skipped.length ≤ k then note.length else 0) := by
  have hone := applySplices_planSplices t following replacement [] h hstop
  rcases planSplices_cases t following replacement start hstop with
    ⟨text, hkeeps, hplan⟩ | ⟨code, note, skipped, rest, hmoves, hplan⟩
  · refine .inl ⟨text, hkeeps, ?_, fun k => ?_⟩
    · have happly := splice_eq t text following h hstop
      rw [hplan, applySplices, foldl_cons, foldl_nil] at hone
      exact append_cancel_left (hone.symm.trans happly)
    · rw [hplan]
      have hmove : (stop : Int) ≤ stop + k := by omega
      show Splice.move _ _ = _
      rw [Splice.move, if_pos hmove]
      simp only
      omega
  · refine .inr ⟨code, note, skipped, rest, hmoves, ?_, fun k => ?_⟩
    · have heq := hmoves.following_eq
      have hlen : (t.take stop).length = stop := length_take_of_le hstop
      have hinsert := splice_append_right (t.take stop) following note skipped.length
      rw [hlen, heq, take_left, drop_left, ← heq] at hinsert
      have happly := splice_eq t code (skipped ++ (note ++ rest)) h hstop
      rw [← hinsert] at happly
      rw [hplan, applySplices, foldl_cons, foldl_cons, foldl_nil] at hone
      exact append_cancel_left (hone.symm.trans happly)
    · rw [hplan, moveAll, foldl_cons, foldl_cons, foldl_nil]
      simp only [Splice.move]
      split_ifs <;> omega

/-! ## Where an offset lands -/

/-- What stands before all spans does not move. -/
lemma moveFrom_of_lt (t : Text) (hord : InOrder t.length cursor splices) (hx : ∀ s ∈ splices, x < s.stop) :
    moveFrom t splices x = x := by
  induction splices generalizing cursor with
  | nil => rfl
  | cons s rest ih =>
    obtain ⟨-, -, hrest⟩ := hord
    obtain ⟨hs, hothers⟩ := forall_mem_cons.mp hx
    rw [moveFrom, ih hrest hothers, moveAll_planSplices_of_lt _ _ _ _ hrest.cursor_le hs]

/-- What stands before all replacements is kept. -/
lemma patchFrom_advance (t : Text) (h : cursor ≤ a) (hstart : ∀ s ∈ splices, a ≤ s.start) :
    patchFrom t cursor splices = t.slice cursor a ++ patchFrom t a splices := by
  cases splices with
  | nil => exact (t.slice_append_drop h).symm
  | cons s rest =>
    rw [patchFrom, patchFrom, ← t.slice_append_slice h (hstart s mem_cons_self),
      append_assoc]

/-- `Lands t cursor a before after front back`: what stands on either side of the place where the
offset `a` of a text has moved, if the replacements `before` stand before it and `after` from it on.
The text `front` is what has become of the text from `cursor` to `a`, and `back` is what has become of
the text from `a` on: the spans are filled and comments have been put in, but none of them at the
beginning of `back`. -/
def Lands (t : Text) (cursor a : Nat) (before after : List Splice) (front back : Text) : Prop :=
  ∃ kept₁ kept₂ notes₁ notes₂,
    Settled (before ++ after) (kept₁ ++ kept₂) (notes₁ ++ notes₂) ∧ kept₁.length = before.length ∧
    Interspersed notes₁ (spliceFrom (t.take a) cursor kept₁) front ∧
    Headed notes₂ (spliceFrom t a kept₂) back

lemma Interspersed.mem_of_mem {base out : Text} (h : Interspersed notes base out) {n : Text} (hn : n ∈ notes)
    {c : CodePoint} (hc : c ∈ n) : c ∈ out := by
  induction h with
  | nil => cases hn
  | keep _ _ ih => exact mem_cons_of_mem _ (ih hn)
  | note _ _ ih =>
    rcases mem_cons.mp hn with rfl | hn
    · exact mem_append_left _ hc
    · exact mem_append_right _ (ih hn)

/-- The scan passes no slash. -/
lemma Passes.slash_notMem (h : Passes skipped rest needsLineEnd) :
    CodePoint.scalar '/' ∉ skipped := by
  intro hmem
  have hpassed := all_eq_true.mp h.all_passed _ hmem
  revert hpassed
  decide

/-- The scan goes on from each place that it passes. -/
lemma Passes.of_append (h : Passes (front ++ skipped) rest needsLineEnd)
    (hne : skipped ≠ []) : Passes skipped rest needsLineEnd := by
  induction front with
  | nil => exact h
  | cons c front ih =>
    rw [cons_append] at h
    generalize htail : front ++ skipped = tail at h
    cases h with
    | comma => exact absurd (append_eq_nil_iff.mp htail).2 hne
    | pass _ h =>
      rw [← htail] at h
      exact ih h

/-! ### Settling one more replacement -/

section Step

variable {t : Text} {cursor a : Nat} {before after : List Splice} {s : Splice}

/-- A span that is filled, in front of a part of the text. -/
lemma spliceFrom_take_cons (kept : List Splice) (text : Text) (hs : s.start ≤ a) :
    spliceFrom (t.take a) cursor (⟨s.start, s.stop, text⟩ :: kept) =
      t.slice cursor s.start ++ (text ++ spliceFrom (t.take a) s.stop kept) := by
  have hgap : Text.slice (t.take a) cursor s.start = t.slice cursor s.start := by
    rw [Text.slice, Text.slice, take_take, min_eq_left hs]
  rw [spliceFrom, hgap, append_assoc]

/-- A replacement before the anchor that keeps its comment. -/
lemma Lands.keep {text : Text} (h : Lands t s.stop a before after front back) (hs : s.start ≤ a)
    (hkeeps : Keeps s.text text) :
    Lands t cursor a (s :: before) after (t.slice cursor s.start ++ (text ++ front)) back := by
  obtain ⟨kept₁, kept₂, notes₁, notes₂, hsettled, hlength, hfront, hback⟩ := h
  refine ⟨⟨s.start, s.stop, text⟩ :: kept₁, kept₂, notes₁, notes₂, hsettled.keep s hkeeps,
    congrArg Nat.succ hlength, ?_, hback⟩
  rw [spliceFrom_take_cons kept₁ text hs]
  exact (hfront.append_left text).append_left _

section Comment

variable {skipped code note : Text} {needsLineEnd : Bool} (hs : s.start ≤ a) (hsheds : Sheds s.text code note)

include hs hsheds

/-- The comment of the replacement comes before the offset: what the scan has passed is text itself. -/
lemma Lands.move_before (h : Lands t s.stop a before after (skipped ++ front) back)
    (hscan : Passes skipped (front ++ back) needsLineEnd) :
    Lands t cursor a (s :: before) after
      (t.slice cursor s.start ++ (code ++ (skipped ++ (note ++ front)))) back := by
  obtain ⟨kept₁, kept₂, notes₁, notes₂, hsettled, hlength, hfront, hback⟩ := h
  obtain ⟨base, hbase, hrest⟩ := hfront.under_scan hscan (prefix_append front back)
    fun n hn => hsettled.blank_slash n (mem_append_left _ hn)
  refine ⟨⟨s.start, s.stop, code⟩ :: kept₁, kept₂, note :: notes₁, notes₂, hsettled.shed s hsheds,
    congrArg Nat.succ hlength, ?_, hback⟩
  rw [spliceFrom_take_cons kept₁ code hs, hbase]
  exact (((hrest.note _).append_left skipped).append_left code).append_left _

/-- The comment of the replacement goes behind the offset: nothing has been put in before the offset,
and from it on the scan passes at least one character of the text itself. -/
lemma Lands.move_behind {left : Text} (h : Lands t s.stop a before after front (skipped ++ left))
    (hscan : Passes (front ++ skipped) left needsLineEnd) (hne : skipped ≠ []) :
    Lands t cursor a (s :: before) after (t.slice cursor s.start ++ (code ++ front))
      (skipped ++ (note ++ left)) := by
  obtain ⟨kept₁, kept₂, notes₁, notes₂, hsettled, hlength, hfront, hback⟩ := h
  have hnotes := hsettled.blank_slash
  obtain rfl : notes₁ = [] := by
    rw [eq_nil_iff_forall_not_mem]
    intro n hn
    obtain ⟨more, rfl⟩ := hnotes n (mem_append_left _ hn)
    exact hscan.slash_notMem (mem_append_left _ (hfront.mem_of_mem hn (by simp)))
  obtain ⟨base, hbase, hleft⟩ := hback.interspersed.under_scan (hscan.of_append hne)
    (prefix_refl left) hnotes
  refine ⟨⟨s.start, s.stop, code⟩ :: kept₁, kept₂, [], note :: notes₂, hsettled.shed s hsheds,
    congrArg Nat.succ hlength, ?_, ?_⟩
  · rw [spliceFrom_take_cons kept₁ code hs]
    exact (hfront.append_left code).append_left _
  · rw [hbase]
    exact .of_interspersed hne (hleft.note _)

end Comment

/-- What settling a replacement does to an offset behind it: the offset still stands between what
has become of the text before it and of the text from it on. -/
lemma Lands.settle (h : Lands t s.stop a before after front back) (hstart : cursor ≤ s.start)
    (hlt : s.start < s.stop) (hs : s.start ≤ a) (hstop : s.stop ≤ t.length)
    (hpatch : patchFrom t s.stop (before ++ after) = front ++ back) :
    ∃ front' back', patchFrom t cursor (s :: (before ++ after)) = front' ++ back' ∧
      moveAll (planSplices (t.take s.stop ++ patchFrom t s.stop (before ++ after)) s.start s.stop s.text)
        (s.stop + front.length) = cursor + front'.length ∧
      Lands t cursor a (s :: before) after front' back' := by
  have hgapLength : (t.slice cursor s.start).length = s.start - cursor := by
    rw [length_slice, min_eq_left (by omega)]
  rw [patchFrom]
  rcases settle_moves t (patchFrom t s.stop (before ++ after)) s.text hlt.le hstop with
    ⟨text, hkeeps, hout, hmoved⟩ | ⟨code, note, skipped, left, ⟨hsheds, -, heq, _, hscan⟩, hout, hmoved⟩
  · refine ⟨_, back, ?_, ?_, h.keep hs hkeeps⟩
    · rw [hout, hpatch]
      simp only [append_assoc]
    · rw [hmoved, length_append, length_append, hgapLength]
      omega
  · rw [hpatch] at heq
    rw [hout, hmoved]
    by_cases hinside : skipped.length ≤ front.length
    · obtain ⟨front', rfl⟩ : skipped <+: front :=
        prefix_of_prefix_length_le ⟨left, heq.symm⟩ (prefix_append front back) hinside
      obtain rfl : left = front' ++ back := by simpa using heq.symm
      refine ⟨_, back, ?_, ?_, h.move_before hs hsheds hscan⟩
      · simp only [append_assoc]
      · rw [if_pos hinside]
        simp only [length_append, hgapLength]
        omega
    · obtain ⟨skipped', rfl⟩ : front <+: skipped :=
        prefix_of_prefix_length_le (prefix_append front back) ⟨left, heq.symm⟩
          (Nat.le_of_not_le hinside)
      have hne : skipped' ≠ [] := by
        rintro rfl
        simp at hinside
      obtain rfl : back = skipped' ++ left := by simpa using heq
      refine ⟨_, _, ?_, ?_, h.move_behind hs hsheds hscan hne⟩
      · simp only [append_assoc]
      · rw [if_neg hinside]
        simp only [length_append, hgapLength]
        omega

end Step

/-- **Where an offset moves that lies inside of no span.**

**Proof sketch.** Induction on the replacements before it. When the first of them is settled, the
offset stands between the two parts already. A comment that moves goes behind what the scan passes:
if the scan ends behind the offset, all that it has passed before the offset belongs to the text
itself, and so does the first character from the offset on; if not, the comment comes before the
offset, which moves on with its character. -/
theorem moveFrom_lands (t : Text) (hord : InOrder t.length cursor (before ++ after)) (hcursor : cursor ≤ a)
    (ha : a ≤ t.length) (hbefore : ∀ s ∈ before, s.stop ≤ a) (hafter : ∀ s ∈ after, a ≤ s.start) :
    ∃ front back, patchFrom t cursor (before ++ after) = front ++ back ∧
      moveFrom t (before ++ after) a = cursor + front.length ∧
      Lands t cursor a before after front back := by
  induction before generalizing cursor with
  | nil =>
    obtain ⟨kept, notes, hsettled, hheaded⟩ := headed_patchFrom t after a
    refine ⟨t.slice cursor a, patchFrom t a after, patchFrom_advance t hcursor hafter, ?_,
      [], kept, [], notes, hsettled, rfl, .refl _, hheaded⟩
    have hlt : ∀ s ∈ after, (a : Int) < s.stop := by
      intro s hs
      have hstart := hafter s hs
      have hspan := ((inOrder_iff.mp hord).2.1 s hs).2.1
      omega
    rw [moveFrom_of_lt t hord hlt, length_slice, min_eq_left ha]
    omega
  | cons s before ih =>
    obtain ⟨hstart, hlt, hrest⟩ := hord
    obtain ⟨hs, hbefore⟩ := forall_mem_cons.mp hbefore
    obtain ⟨front, back, hpatch, hmove, hlands⟩ := ih hrest hs hbefore
    rw [cons_append, moveFrom, hmove]
    exact hlands.settle hstart hlt (by omega) hrest.cursor_le hpatch

/-! ## Offsets stay in order -/

/-- Offsets behind the span of a change stay in order, and do not come before the span. -/
lemma moveAll_planSplices_strictMono (t following replacement : Text) (h : start ≤ stop)
    (hstop : stop ≤ t.length) :
    ∃ f : Nat → Nat, StrictMono f ∧ ∀ k : Nat,
      moveAll (planSplices (t.take stop ++ following) start stop replacement) (stop + k) =
        start + f k := by
  rcases settle_moves t following replacement h hstop with
    ⟨text, -, -, hmoved⟩ | ⟨code, note, skipped, _, -, -, hmoved⟩
  · refine ⟨fun k => text.length + k, fun k l hkl => ?_, fun k => by exact_mod_cast hmoved k⟩
    simp only
    omega
  · refine ⟨fun k => code.length + k + if skipped.length ≤ k then note.length else 0,
      fun k l hkl => ?_, fun k => by exact_mod_cast hmoved k⟩
    simp only
    split_ifs <;> omega

/-- What stands from an offset on, before all spans, does not come before it. -/
lemma le_moveFrom (t : Text) (hord : InOrder t.length cursor splices) (hx : cursor ≤ x) :
    cursor ≤ moveFrom t splices x := by
  induction splices generalizing cursor with
  | nil => exact hx
  | cons s rest ih =>
    obtain ⟨hstart, hlt, hrest⟩ := hord
    rw [moveFrom]
    by_cases hs : x < s.stop
    · have hothers : ∀ s' ∈ rest, x < s'.stop := by
        intro s' hs'
        have hspan := (inOrder_iff.mp hrest).2.1 s' hs'
        omega
      rwa [moveFrom_of_lt t hrest hothers, moveAll_planSplices_of_lt _ _ _ _ hrest.cursor_le hs]
    · obtain ⟨f, -, hf⟩ := moveAll_planSplices_strictMono t (patchFrom t s.stop rest) s.text hlt.le
        hrest.cursor_le
      obtain ⟨k, hk⟩ := Int.le.dest (ih hrest (by omega))
      rw [← hk, hf]
      omega

/-- **Offsets outside of the spans stay in order.** -/
theorem moveFrom_lt_moveFrom (t : Text) (hord : InOrder t.length cursor splices) {a b : Int}
    (ha : ∀ s ∈ splices, a < s.start ∨ s.stop ≤ a) (hb : ∀ s ∈ splices, b < s.start ∨ s.stop ≤ b) (h : a < b) :
    moveFrom t splices a < moveFrom t splices b := by
  induction splices generalizing cursor with
  | nil => exact h
  | cons s rest ih =>
    obtain ⟨hstart, hlt, hrest⟩ := hord
    obtain ⟨hsa, ha⟩ := forall_mem_cons.mp ha
    obtain ⟨hsb, hb⟩ := forall_mem_cons.mp hb
    obtain ⟨f, hf, hmoved⟩ := moveAll_planSplices_strictMono t (patchFrom t s.stop rest) s.text hlt.le
      hrest.cursor_le
    have hwhole : InOrder t.length cursor (s :: rest) := ⟨hstart, hlt, hrest⟩
    have hstops : ∀ x : Int, x < s.start → ∀ s' ∈ s :: rest, x < s'.stop := by
      intro x hx s' hs'
      rcases mem_cons.mp hs' with rfl | hs'
      · omega
      · have hnext := (inOrder_iff.mp hrest).2.1 s' hs'
        omega
    have hbehind : ∀ x : Int, s.stop ≤ x → ∃ k : Nat, moveFrom t rest x = s.stop + k ∧
        moveFrom t (s :: rest) x = s.start + f k := by
      intro x hx
      obtain ⟨k, hk⟩ := Int.le.dest (le_moveFrom t hrest hx)
      exact ⟨k, hk.symm, by rw [moveFrom, ← hk, hmoved]⟩
    rcases hsa with hsa | hsa
    · rw [moveFrom_of_lt t hwhole (hstops a hsa)]
      rcases hsb with hsb | hsb
      · rwa [moveFrom_of_lt t hwhole (hstops b hsb)]
      · obtain ⟨k, -, hk⟩ := hbehind b hsb
        rw [hk]
        omega
    · obtain ⟨k, hk, hka⟩ := hbehind a hsa
      obtain ⟨l, hl, hlb⟩ := hbehind b (by omega)
      have hkl : f k < f l := hf (by have := ih hrest ha hb; omega)
      rw [hka, hlb]
      omega

/-! ## The changes of a text -/

/-- The spans that are filled are those of the replacements. -/
lemma Settled.map_span {kept : List Splice} (h : Settled splices kept notes) :
    kept.map Splice.span = splices.map Splice.span := by
  induction h with
  | nil => rfl
  | keep s _ _ ih | move s _ _ _ ih => rw [map_cons, map_cons, ih]; rfl

/-- The spans behind as many as there are before an offset. -/
lemma Settled.map_span_right {kept₁ kept₂ : List Splice}
    (h : Settled (before ++ after) (kept₁ ++ kept₂) notes) (hlength : kept₁.length = before.length) :
    kept₂.map Splice.span = after.map Splice.span := by
  have hmap := h.map_span
  rw [map_append, map_append] at hmap
  exact (append_inj hmap (by simpa using hlength)).2

/-- Replacements in order stand before an offset or from it on, if it lies inside of none of them. -/
lemma InOrder.exists_split {limit : Nat} (hord : InOrder limit cursor splices)
    (h : ∀ s ∈ splices, s.stop ≤ a ∨ a ≤ s.start) :
    ∃ before after, splices = before ++ after ∧ (∀ s ∈ before, s.stop ≤ a) ∧
      ∀ s ∈ after, a ≤ s.start := by
  induction splices generalizing cursor with
  | nil => exact ⟨[], [], rfl, by simp, by simp⟩
  | cons s rest ih =>
    obtain ⟨-, hlt, hrest⟩ := hord
    obtain ⟨hs, h⟩ := forall_mem_cons.mp h
    rcases hs with hs | hs
    · obtain ⟨before, after, rfl, hbefore, hafter⟩ := ih hrest h
      exact ⟨s :: before, after, rfl, forall_mem_cons.mpr ⟨hs, hbefore⟩, hafter⟩
    · refine ⟨[], s :: rest, rfl, by simp, forall_mem_cons.mpr ⟨hs, fun s' hs' => ?_⟩⟩
      have hspan := (inOrder_iff.mp hrest).2.1 s' hs'
      omega

namespace Change

/-- A change whose span holds an offset. -/
def Covers (c : Change) (a : Int) : Prop := c.bounds.1 ≤ a ∧ a < c.bounds.2

/-- A change whose span holds an offset that is not its beginning. -/
def CoversInside (c : Change) (a : Int) : Prop := c.bounds.1 < a ∧ a < c.bounds.2

instance (c : Change) (a : Int) : Decidable (c.Covers a) := inferInstanceAs (Decidable (_ ∧ _))

instance (c : Change) (a : Int) : Decidable (c.CoversInside a) := inferInstanceAs (Decidable (_ ∧ _))

/-- `c.BeginsAt t changes out m`: in the text `out` that changes make of `t`, the replacement of `c` begins
at `m`. What stands before it is the text up to the span, with the earlier spans filled. From there on
stand first what fills the span of `c` and then the rest of the text, and of the comments that have been
put in none comes first. -/
def BeginsAt (t : Text) (changes : List Change) (out : Text) (c : Change) (m : Nat) : Prop :=
  ∃ before after kept₁ text kept₂ notes₁ notes₂ front back,
    (sortChanges changes).map splice = before ++ c.splice :: after ∧
    Settled (before ++ c.splice :: after)
      (kept₁ ++ ⟨c.splice.start, c.splice.stop, text⟩ :: kept₂) (notes₁ ++ notes₂) ∧
    kept₁.length = before.length ∧ out = front ++ back ∧ front.length = m ∧
    Interspersed notes₁ (spliceFrom (t.take c.splice.start) 0 kept₁) front ∧
    Headed notes₂ (text ++ spliceFrom t c.splice.stop kept₂) back

end Change

/-- `Follows t changes out a m`: the offset `a` of a text is `m` in the text `out` that changes make of
it. Each change lies before the offset or behind it, and `m` stands between what has become of the text
on either side. -/
def Follows (t : Text) (changes : List Change) (out : Text) (a m : Nat) : Prop :=
  ∃ before after front back, (sortChanges changes).map Change.splice = before ++ after ∧
    (∀ s ∈ before, s.stop ≤ a) ∧ (∀ s ∈ after, a ≤ s.start) ∧ out = front ++ back ∧ front.length = m ∧
    Lands t 0 a before after front back

section Accepted

variable {t : Text} {changes : List Change} (hspans : ∀ c ∈ changes, c.IsAnchored)
  (hvalid : validate t changes = .ok ())

include hspans hvalid

/-- The bounds of a change are those of its replacement. -/
lemma bounds_eq_splice (hc : c ∈ changes) :
    c.bounds.1 = c.splice.start ∧ c.bounds.2 = c.splice.stop := by
  obtain ⟨hnonneg, hle, -, -⟩ := fits_of_validate (fun c hc => (hspans c hc).hasSpan) hvalid hc
  exact ⟨(Int.toNat_of_nonneg hnonneg).symm, (Int.toNat_of_nonneg (hnonneg.trans hle)).symm⟩

/-- **Where an offset moves that lies inside of no change.** -/
theorem exists_follows (ha : a ≤ t.length) (hinside : ∀ c ∈ changes, ¬ c.CoversInside a) :
    ∃ m : Nat, moveFrom t ((sortChanges changes).map Change.splice) a = m ∧
      Follows t changes (patchFrom t 0 ((sortChanges changes).map Change.splice)) a m := by
  have hord := inOrder_sortChanges hspans hvalid
  have hsides : ∀ s ∈ (sortChanges changes).map Change.splice, s.stop ≤ a ∨ a ≤ s.start := by
    intro s hs
    obtain ⟨c, hc, rfl⟩ := mem_map.mp hs
    have hc' := (sortAscending_perm _ changes).mem_iff.mp hc
    obtain ⟨hstart, hstop⟩ := bounds_eq_splice hspans hvalid hc'
    have hnot := hinside c hc'
    rw [Change.CoversInside, hstart, hstop] at hnot
    omega
  obtain ⟨before, after, heq, hbefore, hafter⟩ := hord.exists_split hsides
  rw [heq] at hord
  obtain ⟨front, back, hpatch, hmove, hlands⟩ :=
    moveFrom_lands t hord (Nat.zero_le a) ha hbefore hafter
  exact ⟨front.length, by simpa [heq] using hmove, before, after, front, back, heq, hbefore, hafter,
    heq ▸ hpatch, rfl, hlands⟩

/-- An offset outside of the changes moves with its character. -/
lemma exists_getElem?_of_not_covers (ha : a < t.length) (houtside : ∀ c ∈ changes, ¬ c.Covers a) :
    ∃ m : Nat, moveFrom t ((sortChanges changes).map Change.splice) a = m ∧
      m < (patchFrom t 0 ((sortChanges changes).map Change.splice)).length ∧
      (patchFrom t 0 ((sortChanges changes).map Change.splice))[m]? = t[a]? := by
  obtain ⟨m, hmove, before, after, front, back, heq, -, hafter, hpatch, rfl, kept₁, kept₂, notes₁, notes₂,
    hsettled, hlength, -, hback⟩ := exists_follows hspans hvalid ha.le
      fun c hc h => houtside c hc ⟨h.1.le, h.2⟩
  -- the first span from the offset on begins behind it
  have hspan : kept₂.map Splice.span = after.map Splice.span := hsettled.map_span_right hlength
  have hlater : ∀ k ∈ kept₂, a + 1 ≤ k.start := by
    intro k hk
    obtain ⟨s, hs, hsk⟩ := mem_map.mp (hspan ▸ mem_map_of_mem hk)
    obtain ⟨c, hc, rfl⟩ := mem_map.mp (heq ▸ mem_append_right before hs :
      s ∈ (sortChanges changes).map Change.splice)
    have hc' := (sortAscending_perm _ changes).mem_iff.mp hc
    have hnot := houtside c hc'
    obtain ⟨hstart, hstop⟩ := bounds_eq_splice hspans hvalid hc'
    have hlt := (hspans c hc').lt
    rw [Change.Covers, hstart, hstop] at hnot
    have hge := hafter _ hs
    have hkstart : k.start = c.splice.start := congrArg Prod.fst hsk.symm
    omega
  have hone : t.slice a (a + 1) = [t.get ⟨a, ha⟩] := by
    rw [slice_eq_take_drop, drop_eq_getElem_cons ha, Nat.add_sub_cancel_left]
    rfl
  rw [spliceFrom_advance t (Nat.le_succ a) hlater, hone] at hback
  refine ⟨front.length, hmove, ?_⟩
  rw [hpatch]
  cases hback with
  | cons c h =>
    refine ⟨by simp, ?_⟩
    rw [getElem?_append_right (Nat.le_refl _), Nat.sub_self]
    exact (getElem?_eq_getElem ha).symm

/-- The beginning of a span moves to the beginning of what fills the span. -/
lemma exists_beginsAt (hc : c ∈ changes) :
    ∃ m : Nat, moveFrom t ((sortChanges changes).map Change.splice) c.bounds.1 = m ∧
      c.BeginsAt t changes (patchFrom t 0 ((sortChanges changes).map Change.splice)) m := by
  have hord := inOrder_sortChanges hspans hvalid
  have hmem : c.splice ∈ (sortChanges changes).map Change.splice :=
    mem_map_of_mem ((sortAscending_perm _ changes).mem_iff.mpr hc)
  obtain ⟨before, after, heq⟩ := append_of_mem hmem
  rw [(bounds_eq_splice hspans hvalid hc).1]
  have hspans' := inOrder_iff.mp hord
  rw [heq] at hord hspans'
  obtain ⟨-, hbounds, hpair⟩ := hspans'
  have hbefore : ∀ s ∈ before, s.stop ≤ c.splice.start := fun s hs =>
    (pairwise_append.mp hpair).2.2 s hs c.splice mem_cons_self
  have hafter : ∀ s ∈ c.splice :: after, c.splice.start ≤ s.start := by
    refine forall_mem_cons.mpr ⟨Nat.le_refl _, fun s hs => ?_⟩
    have hnext := (pairwise_cons.mp (pairwise_append.mp hpair).2.1).1 s hs
    have hlt := (hbounds c.splice (by simp)).2.1
    omega
  have hle : c.splice.start ≤ t.length := by
    have hbound := hbounds c.splice (by simp)
    omega
  obtain ⟨front, back, hpatch, hmove, kept₁, kept₂, notes₁, notes₂, hsettled, hlength, hfront, hback⟩ :=
    moveFrom_lands t hord (Nat.zero_le _) hle hbefore hafter
  -- what fills the span comes first behind the spans before it
  have hspan : kept₂.map Splice.span = (c.splice :: after).map Splice.span := hsettled.map_span_right hlength
  cases kept₂ with
  | nil => simp at hspan
  | cons k kept₂ =>
    obtain ⟨start, stop, text⟩ := k
    obtain ⟨hk, -⟩ := List.cons.inj hspan
    obtain ⟨rfl, rfl⟩ : start = c.splice.start ∧ stop = c.splice.stop := Prod.mk.inj hk
    refine ⟨front.length, by simpa [heq] using hmove, before, after, kept₁, text, kept₂, notes₁, notes₂,
      front, back, heq, hsettled, hlength, by rw [heq, hpatch], rfl, hfront, ?_⟩
    have hempty : t.slice c.splice.start c.splice.start = [] := by
      rw [slice_eq_take_drop, Nat.sub_self, take_zero]
    rwa [spliceFrom, hempty, nil_append] at hback

end Accepted

/-- **Offsets follow the text.** Changes with spans that are not empty and that are accepted can be
applied, and every offset moves on its own. One that lies in no span moves with its character; the
beginning of a span moves to the beginning of the replacement; and offsets outside of the spans stay in
order. -/
theorem applyChanges_moves_anchors (t : Text) (changes : List Change)
    (hspans : ∀ c ∈ changes, c.IsAnchored) (hvalid : validate t changes = .ok ()) :
    ∃ (out : Text) (move : Int → Int),
      (∀ anchors, applyChanges t changes anchors = .ok (out, anchors.map move)) ∧
      (∀ a : Nat, a < t.length → (∀ c ∈ changes, ¬ c.Covers a) →
        ∃ m : Nat, move a = m ∧ m < out.length ∧ out[m]? = t[a]?) ∧
      (∀ c ∈ changes, ∃ m : Nat, move c.bounds.1 = m ∧ c.BeginsAt t changes out m) ∧
      ∀ a b : Int, (∀ c ∈ changes, ¬ c.Covers a) → (∀ c ∈ changes, ¬ c.Covers b) → a < b →
        move a < move b := by
  refine ⟨_, _, applyChanges_eq hspans hvalid, fun a => exists_getElem?_of_not_covers hspans hvalid,
    fun c => exists_beginsAt hspans hvalid, fun a b ha hb hab => ?_⟩
  have houtside : ∀ x : Int, (∀ c ∈ changes, ¬ c.Covers x) →
      ∀ s ∈ (sortChanges changes).map Change.splice, x < s.start ∨ s.stop ≤ x := by
    intro x hx s hs
    obtain ⟨c, hc, rfl⟩ := mem_map.mp hs
    have hc' := (sortAscending_perm _ changes).mem_iff.mp hc
    obtain ⟨hstart, hstop⟩ := bounds_eq_splice hspans hvalid hc'
    have hnot := hx c hc'
    rw [Change.Covers, hstart, hstop] at hnot
    omega
  exact moveFrom_lt_moveFrom t (inOrder_sortChanges hspans hvalid) (houtside a ha) (houtside b hb) hab

/-- Two calls in the arguments of a third: the comment of the first goes right before the blank behind the
comma, which moves on by that comment and its line break. -/
theorem applyChanges_moves_anchors_call :
    let t : Text := "f(a, b)\n"
    let first := Change.make t "f.js" 2 3 "x // A"
    let changes := [Change.make t "f.js" 5 6 "y // B", first]
    (∀ c ∈ changes, c.IsAnchored) ∧ validate t changes = .ok () ∧
      (∀ c ∈ changes, ¬ c.Covers 4) ∧ (∀ c ∈ changes, ¬ c.Covers 6) ∧
      ∃ m n k : Nat, applyChanges t changes [2, 4, 6] = .ok ("f(x, // A\n y) // B\n", [m, n, k]) ∧
        first.BeginsAt t changes "f(x, // A\n y) // B\n" m ∧
        ("f(x, // A\n y) // B\n" : Text)[n]? = t[4]? ∧
        ("f(x, // A\n y) // B\n" : Text)[k]? = t[6]? ∧ n < k := by
  intro t first changes
  have hspans : ∀ c ∈ changes, c.IsAnchored := by
    simp only [changes, first, forall_mem_cons, not_mem_nil, false_imp_iff, implies_true, and_true]
    exact ⟨Change.isAnchored_make t _ _ (by decide), Change.isAnchored_make t _ _ (by decide)⟩
  have hvalid : validate t changes = .ok () := by rfl
  have hblank : ∀ c ∈ changes, ¬ c.Covers 4 := by decide
  have hbracket : ∀ c ∈ changes, ¬ c.Covers 6 := by decide
  obtain ⟨out, move, happly, hkeep, hbegin, hmono⟩ := applyChanges_moves_anchors t changes hspans hvalid
  obtain ⟨m, hm, hfirst⟩ := hbegin first (by simp [changes])
  obtain ⟨n, hn, -, hn'⟩ := hkeep 4 (by decide) hblank
  obtain ⟨k, hk, -, hk'⟩ := hkeep 6 (by decide) hbracket
  have hlt := hmono 4 6 hblank hbracket (by decide)
  have hmoved : [2, 4, 6].map move = [(m : Int), n, k] := by
    rw [map_cons, map_cons, map_cons, map_nil]
    exact congrArg₂ _ hm (congrArg₂ _ hn (congrArg₂ _ hk rfl))
  have heq : applyChanges t changes [2, 4, 6] = .ok ("f(x, // A\n y) // B\n", [2, 10, 12]) := by rfl
  have happly := happly [2, 4, 6]
  obtain ⟨rfl, -⟩ := Prod.mk.inj (Except.ok.inj (happly.symm.trans heq))
  refine ⟨hspans, hvalid, hblank, hbracket, m, n, k, happly.trans (by rw [hmoved]), hfirst, hn', hk', ?_⟩
  rw [show move 4 = n from hn, show move 6 = k from hk] at hlt
  exact_mod_cast hlt

end Phrasebook
