import Phrasebook.Conversion.Outcome
import Phrasebook.Edit.Apply
import Phrasebook.Proofs.Sorting

/-!
# What the check of changes says

The check looks at neighbours only, in the order of their spans; since every span ends where it begins or
later, neighbours that do not overlap are enough for all pairs.

## Main results

* `validate_eq_ok_iff` — changes are accepted whose spans lie in the text, quote what stands there and do
  not overlap.
* `pairwise_sortChanges`, `sortDescending_placeKey` — the order in which accepted changes are applied.
-/

namespace Phrasebook

open List

variable {c : Change} {changes : List Change} {t : Text}

/-- A span that lies in a text and quotes what the change is to replace. -/
def Fits (t : Text) (c : Change) (span : Int × Int) : Prop :=
  0 ≤ span.1 ∧ span.1 ≤ span.2 ∧ span.2 ≤ t.length ∧ t.slice span.1.toNat span.2.toNat = c.replaced

/-- The check of one change. -/
lemma validateSpan_eq_ok_iff (t : Text) (previous : Option (Int × Int)) (c : Change) (start stop : Int) :
    validateSpan t previous c start stop = .ok () ↔
      Fits t c (start, stop) ∧ ∀ p ∈ previous, p.2 ≤ start := by
  unfold validateSpan Fits
  by_cases hrange : start < 0 ∨ stop > t.length ∨ start > stop
  · have hbool : (start < 0 || stop > t.length || start > stop) := by
      simpa [or_assoc] using hrange
    simp only [hbool, if_true, reduceCtorEq, false_iff]
    rintro ⟨⟨h0, h1, h2, -⟩, -⟩
    omega
  · have hbool : (start < 0 || stop > t.length || start > stop) = false := by
      simpa [and_assoc] using hrange
    simp only [hbool, Bool.false_eq_true, if_false]
    have hin : 0 ≤ start ∧ start ≤ stop ∧ stop ≤ t.length := by omega
    by_cases hquote : t.slice start.toNat stop.toNat = c.replaced
    · cases previous with
      | none => simp [hquote, hin]
      | some p =>
        by_cases hp : p.2 > start
        · simp [hquote, hp]
        · simp [hquote, hin, hp, not_lt.mp hp]
    · simp [hquote]

/-- What the check of changes in the order of their spans accepts: neighbours that do not overlap
are enough, since no span ends before it begins. -/
theorem validateFrom_eq_ok_iff (t : Text) (previous : Option (Int × Int)) (l : List (Change × Int × Int)) :
    validateFrom t previous l = .ok () ↔
      (∀ x ∈ l, Fits t x.1 x.2) ∧ (∀ p ∈ previous, ∀ x ∈ l, p.2 ≤ x.2.1) ∧
        l.Pairwise fun a b => a.2.2 ≤ b.2.1 := by
  induction l generalizing previous with
  | nil => simp [validateFrom]
  | cons x l ih =>
    obtain ⟨c, start, stop⟩ := x
    have hsplit : validateFrom t previous ((c, start, stop) :: l) = .ok () ↔
        validateSpan t previous c start stop = .ok () ∧
          validateFrom t (some (start, stop)) l = .ok () := by
      rw [validateFrom]
      cases validateSpan t previous c start stop with
      | error e => simp [bind, Except.bind]
      | ok u => simp [bind, Except.bind]
    rw [hsplit, validateSpan_eq_ok_iff, ih, pairwise_cons, forall_mem_cons]
    constructor
    · rintro ⟨⟨hfits, hprev⟩, hrest, hnext, hpair⟩
      refine ⟨⟨hfits, hrest⟩, fun p hp => ?_, fun y hy => hnext _ rfl y hy, hpair⟩
      rw [forall_mem_cons]
      refine ⟨hprev p hp, fun y hy => ?_⟩
      have h₁ := hprev p hp
      have h₂ := hnext _ rfl y hy
      have h₃ := hfits.2.1
      simp only at h₁ h₂ h₃
      omega
    · rintro ⟨⟨hfits, hrest⟩, hprev, hnext, hpair⟩
      refine ⟨⟨hfits, fun p hp => hprev p hp _ mem_cons_self⟩, hrest, ?_, hpair⟩
      rintro p ⟨⟩ y hy
      exact hnext y hy

/-- What the check accepts: spans that fit, and none of which ends after the next one begins. -/
theorem validate_eq_ok_iff (t : Text) (changes : List Change) :
    validate t changes = .ok () ↔
      (∀ x ∈ anchored changes, Fits t x.1 x.2) ∧
        (sortAscending (fun c : Change × Int × Int => [c.2.1, c.2.2]) (anchored changes)).Pairwise
          fun a b => a.2.2 ≤ b.2.1 := by
  rw [validate, validateFrom_eq_ok_iff]
  simp [(sortAscending_perm _ (anchored changes)).mem_iff]

/-! ## The order of accepted changes -/

namespace Change

/-- A change with a span, which may be empty. -/
def HasSpan (c : Change) : Prop := ∃ start stop, c.start = some start ∧ c.stop = some stop

/-- A change with a span that is not empty. -/
def IsAnchored (c : Change) : Prop :=
  ∃ start stop, c.start = some start ∧ c.stop = some stop ∧ start < stop

/-- The span of a change, as numbers. -/
def bounds (c : Change) : Int × Int := (c.start.getD 0, c.stop.getD 0)

/-- The key by which the check puts changes in order: their spans. -/
def spanKey (c : Change) : List Int := [c.bounds.1, c.bounds.2]

/-- The key by which changes with spans are applied: where they begin, and then the position that they
tell. -/
def placeKey (c : Change) : List Int := [c.bounds.1, c.first.line, c.first.column]

/-- A change as the replacement of its span. -/
def splice (c : Change) : Splice := ⟨c.bounds.1.toNat, c.bounds.2.toNat, c.replacement⟩

lemma HasSpan.span? (h : c.HasSpan) : c.span? = some c.bounds := by
  obtain ⟨start, stop, hstart, hstop⟩ := h
  simp [Change.span?, bounds, hstart, hstop]

lemma IsAnchored.hasSpan (h : c.IsAnchored) : c.HasSpan := by
  obtain ⟨start, stop, hstart, hstop, -⟩ := h
  exact ⟨start, stop, hstart, hstop⟩

/-- A change that is made for a span is one with that span. -/
lemma isAnchored_make (t file replacement : Text) {start stop : Nat} (h : start < stop) :
    (Change.make t file start stop replacement).IsAnchored :=
  ⟨start, stop, rfl, rfl, by exact_mod_cast h⟩

lemma IsAnchored.lt (h : c.IsAnchored) : c.bounds.1 < c.bounds.2 := by
  obtain ⟨start, stop, hstart, hstop, hlt⟩ := h
  simpa [bounds, hstart, hstop] using hlt

end Change

lemma anchored_eq_map (hspans : ∀ c ∈ changes, c.HasSpan) :
    anchored changes = changes.map fun c => (c, c.bounds) := by
  rw [anchored, ← filterMap_eq_map]
  refine filterMap_congr fun c hc => ?_
  rw [(hspans c hc).span?]
  rfl

/-- **What the check accepts of changes that all have spans.** -/
theorem validate_eq_ok_iff_of_hasSpan (hspans : ∀ c ∈ changes, c.HasSpan) :
    validate t changes = .ok () ↔
      (∀ c ∈ changes, Fits t c c.bounds) ∧
        (sortAscending Change.spanKey changes).Pairwise fun a b => a.bounds.2 ≤ b.bounds.1 := by
  rw [validate_eq_ok_iff, anchored_eq_map hspans, sortAscending, sortStable_map, pairwise_map,
    forall_mem_map]
  rfl

/-- An accepted change fits the text. -/
lemma fits_of_validate (hspans : ∀ c ∈ changes, c.HasSpan) (hvalid : validate t changes = .ok ())
    (hc : c ∈ changes) : Fits t c c.bounds :=
  ((validate_eq_ok_iff_of_hasSpan hspans).mp hvalid).1 c hc

section Order

variable {t : Text} {changes : List Change} (hspans : ∀ c ∈ changes, c.IsAnchored)
  (hvalid : validate t changes = .ok ())

include hspans hvalid

/-- **Accepted changes in order** follow each other: each ends before the next one begins.

**Proof sketch.** The check has put the changes in the order of their spans, and there no change
ends after the next one begins. So no two of them overlap, and since no span is empty, they follow
each other in every order by the beginnings of the spans. -/
theorem pairwise_sortChanges :
    (sortChanges changes).Pairwise fun a b => a.bounds.2 ≤ b.bounds.1 := by
  have hpair := ((validate_eq_ok_iff_of_hasSpan fun c hc => (hspans c hc).hasSpan).mp hvalid).2
  refine pairwise_sortAscending_spans Change.bounds (fun _ => ⟨[], rfl⟩)
    (fun c hc => (hspans c hc).lt) ?_
  exact (hpair.imp Or.inl).perm (sortAscending_perm _ changes) Or.symm

/-- Accepted changes are applied in the reverse of their order, whatever their positions say. -/
theorem sortDescending_placeKey :
    sortDescending Change.placeKey changes = (sortChanges changes).reverse := by
  have hdecreasing : (sortDescending Change.placeKey changes).Pairwise
      fun a b => b.bounds.1 ≤ a.bounds.1 :=
    (pairwise_sortDescending Change.placeKey changes).imp le_of_keysLe_cons
  have hincreasing : (sortChanges changes).Pairwise fun a b => a.bounds.1 < b.bounds.1 :=
    (pairwise_sortChanges hspans hvalid).imp_of_mem fun {a b} ha _ hab =>
      (hspans a ((sortAscending_perm _ changes).mem_iff.mp ha)).lt.trans_le hab
  rw [← reverse_eq_iff]
  refine (eq_of_perm_of_increasing (fun c : Change => c.bounds.1) ?_ hincreasing
    (pairwise_reverse.mpr hdecreasing)).symm
  exact (sortAscending_perm _ changes).trans
    ((reverse_perm _).trans (sortDescending_perm _ changes)).symm

end Order

end Phrasebook
