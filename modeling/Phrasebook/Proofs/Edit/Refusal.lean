import Mathlib.Data.List.Perm.Subperm
import Phrasebook.Proofs.Edit.Patch

/-!
# What the check of changes refuses

The check compares each change with the one before it only, in the order of their spans. That finds
every overlap as long as all spans fit: if neighbours in that order do not overlap, the ends of the
spans increase with their beginnings.

## Main results

* `validate_eq_ok_iff_apart` — changes with spans that fit are accepted if no two of them overlap.
* `applyChanges_refuses_iff` — they are refused if one does not fit the text or two overlap, and only then.
-/

namespace Phrasebook

open List

variable {a b : Change} {changes : List Change} {t : Text} {p : Problem} {α : Type}

/-- A symmetric relation holds between the entries of a list if it holds between any two of them. -/
theorem pairwise_iff_forall_subperm {R : α → α → Prop} (hsymm : ∀ {a b}, R a b → R b a)
    {l : List α} : l.Pairwise R ↔ ∀ a b, [a, b].Subperm l → R a b := by
  constructor
  · rintro hpair a b ⟨pair, hperm, hsub⟩
    exact pairwise_pair.mp ((hpair.sublist hsub).perm hperm hsymm)
  · intro h
    exact pairwise_iff_forall_sublist.mpr fun hsub => h _ _ hsub.subperm

/-! ## Overlaps -/

namespace Change

/-- Two changes of which the first, in the order of their spans, ends after the other begins. -/
def Overlaps (a b : Change) : Prop :=
  (a.bounds.1 < b.bounds.1 ∨ a.bounds.1 = b.bounds.1 ∧ a.bounds.2 ≤ b.bounds.2) ∧
    b.bounds.1 < a.bounds.2

instance (a b : Change) : Decidable (a.Overlaps b) :=
  inferInstanceAs (Decidable ((a.bounds.1 < b.bounds.1 ∨
    a.bounds.1 = b.bounds.1 ∧ a.bounds.2 ≤ b.bounds.2) ∧ b.bounds.1 < a.bounds.2))

/-- Changes that do not overlap, whichever of them comes first. -/
def Apart (a b : Change) : Prop := ¬a.Overlaps b ∧ ¬b.Overlaps a

lemma Apart.symm (h : a.Apart b) : b.Apart a := And.symm h

lemma keysLe_spanKey_iff : keysLe a.spanKey b.spanKey ↔
    a.bounds.1 < b.bounds.1 ∨ a.bounds.1 = b.bounds.1 ∧ a.bounds.2 ≤ b.bounds.2 := by
  simp only [spanKey, keysLe]
  split_ifs with hstart hstop
  · simp [hstart, hstop]
  · simp [hstart]
  · simp only [decide_eq_true_eq, hstart, false_and, or_false]
    omega

/-- A change that ends where another begins, or before, is apart from it. -/
lemma apart_of_le (ha : a.bounds.1 ≤ a.bounds.2) (h : a.bounds.2 ≤ b.bounds.1) : a.Apart b := by
  simp only [Apart, Overlaps]
  omega

end Change

/-- **The order of the check shows all overlaps**, if no span ends before it begins. -/
theorem pairwise_spanKey_iff (hle : ∀ c ∈ changes, c.bounds.1 ≤ c.bounds.2) :
    ((sortAscending Change.spanKey changes).Pairwise fun a b => a.bounds.2 ≤ b.bounds.1) ↔
      changes.Pairwise Change.Apart := by
  have hperm := sortAscending_perm Change.spanKey changes
  constructor
  · intro hpair
    refine List.Pairwise.perm (hpair.imp_of_mem fun {a b} ha _ hab => ?_) hperm Change.Apart.symm
    exact Change.apart_of_le (hle a (hperm.mem_iff.mp ha)) hab
  · intro hapart
    have hapart' := hapart.perm hperm.symm Change.Apart.symm
    refine (hapart'.and (pairwise_sortAscending Change.spanKey changes)).imp ?_
    rintro a b ⟨⟨hnot, -⟩, horder⟩
    exact not_lt.mp fun hlt => hnot ⟨Change.keysLe_spanKey_iff.mp horder, hlt⟩

/-- **What the check accepts**: changes that fit and are apart. -/
theorem validate_eq_ok_iff_apart (hspans : ∀ c ∈ changes, c.HasSpan) :
    validate t changes = .ok () ↔
      (∀ c ∈ changes, Fits t c c.bounds) ∧ changes.Pairwise Change.Apart := by
  rw [validate_eq_ok_iff_of_hasSpan hspans]
  exact and_congr_right fun hall => pairwise_spanKey_iff fun c hc => (hall c hc).2.1

/-! ## Refused changes -/

/-- A refused change is misplaced. -/
lemma kind_of_validateSpan {previous : Option (Int × Int)} {c : Change} {start stop : Int}
    (h : validateSpan t previous c start stop = .error p) : p.cause.kind = .misplaced := by
  unfold validateSpan at h
  split_ifs at h
  · exact Except.error.inj h ▸ rfl
  · exact Except.error.inj h ▸ rfl
  · cases previous with
    | none => cases h
    | some previous =>
      simp only at h
      split_ifs at h
      exact Except.error.inj h ▸ rfl

/-- **The check reports misplaced changes** and nothing else. -/
theorem kind_of_validate (h : validate t changes = .error p) : p.cause.kind = .misplaced := by
  have hfrom : ∀ (l : List (Change × Int × Int)) (previous : Option (Int × Int)),
      validateFrom t previous l = .error p → p.cause.kind = .misplaced := by
    intro l
    induction l with
    | nil => exact fun _ h => nomatch h
    | cons x l ih =>
      intro previous h
      rw [validateFrom] at h
      cases hspan : validateSpan t previous x.1 x.2.1 x.2.2 with
      | error e =>
        rw [hspan] at h
        exact Except.error.inj h ▸ kind_of_validateSpan hspan
      | ok =>
        rw [hspan] at h
        exact ih _ h
  exact hfrom _ _ h

lemma exists_ok_of_foldlM {σ ε : Type} {step : σ → α → Except ε σ} {l : List α}
    (h : ∀ a ∈ l, ∀ s, ∃ s', step s a = .ok s') (s : σ) : ∃ s', l.foldlM step s = .ok s' := by
  induction l generalizing s with
  | nil => exact ⟨s, rfl⟩
  | cons a l ih =>
    obtain ⟨s', hstep⟩ := h a mem_cons_self s
    rw [foldlM_cons, hstep]
    exact ih (fun b hb => h b (mem_cons_of_mem a hb)) s'

section Spans

variable {t : Text} {changes : List Change} (hspans : ∀ c ∈ changes, c.HasSpan) (anchors : List Int)

include hspans

/-- Accepted changes with spans can be applied, empty or not. -/
lemma exists_ok_of_validate (hvalid : validate t changes = .ok ()) :
    ∃ result, applyChanges t changes anchors = .ok result := by
  rw [applyChanges_eq_foldlM hspans hvalid]
  refine exists_ok_of_foldlM (fun c hc state => ⟨_, applyChange_eq state (hspans c ?_)⟩) _
  exact (sortDescending_perm _ changes).mem_iff.mp hc

/-- **Changes with spans fail in the check or not at all.** -/
theorem applyChanges_eq_error_iff {failure : Failure} :
    applyChanges t changes anchors = .error failure ↔
      ∃ p, failure = .problem p ∧ validate t changes = .error p := by
  cases hvalid : validate t changes with
  | ok =>
    obtain ⟨result, hresult⟩ := exists_ok_of_validate hspans anchors hvalid
    simp [hresult]
  | error p =>
    have hne : changes ≠ [] := by
      rintro rfl
      cases hvalid
    have happly : applyChanges t changes anchors = .error (.problem p) := by
      simp [applyChanges, hne, hvalid, Except.mapError, bind, Except.bind]
    rw [happly]
    constructor
    · intro h
      exact ⟨p, (Except.error.inj h).symm, rfl⟩
    · rintro ⟨q, rfl, hq⟩
      rw [Except.error.inj hq]

end Spans

/-- **What is refused.** Changes with spans are refused as misplaced exactly if one of them has a span
that is none of the text or does not quote it, or if two of them overlap, wherever they stand in the
list. All others can be applied.

**Proof sketch.** If a span does not fit, the check comes to it or stops before. If all fit, no span
ends before it begins, and then neighbours that do not overlap are enough (`pairwise_spanKey_iff`). -/
theorem applyChanges_refuses_iff (t : Text) (changes : List Change) (anchors : List Int)
    (hspans : ∀ c ∈ changes, c.HasSpan) :
    ((∃ p, applyChanges t changes anchors = .error (.problem p) ∧ p.cause.kind = .misplaced) ↔
      (∃ c ∈ changes, c.bounds.1 < 0 ∨ t.length < c.bounds.2 ∨ c.bounds.2 < c.bounds.1 ∨
        t.slice c.bounds.1.toNat c.bounds.2.toNat ≠ c.replaced) ∨
      ∃ a b, [a, b].Subperm changes ∧ a.Overlaps b) ∧
    ((∃ p, applyChanges t changes anchors = .error (.problem p) ∧ p.cause.kind = .misplaced) ∨
      ∃ result, applyChanges t changes anchors = .ok result) := by
  have hrefused : (∃ p, applyChanges t changes anchors = .error (.problem p) ∧
      p.cause.kind = .misplaced) ↔ validate t changes ≠ .ok () := by
    cases hvalid : validate t changes with
    | ok =>
      obtain ⟨result, hresult⟩ := exists_ok_of_validate hspans anchors hvalid
      simp [hresult]
    | error p =>
      have happly := (applyChanges_eq_error_iff hspans anchors).mpr ⟨p, rfl, hvalid⟩
      simpa using ⟨p, happly, kind_of_validate hvalid⟩
  have hfits : (∃ c ∈ changes, c.bounds.1 < 0 ∨ t.length < c.bounds.2 ∨ c.bounds.2 < c.bounds.1 ∨
      t.slice c.bounds.1.toNat c.bounds.2.toNat ≠ c.replaced) ↔ ¬∀ c ∈ changes, Fits t c c.bounds := by
    simp only [Fits, not_forall, not_and_or, not_le, exists_prop, ne_eq]
    refine exists_congr fun c => and_congr_right fun _ => ?_
    constructor
    · rintro (h | h | h | h) <;> simp [h]
    · rintro (h | h | h | h) <;> simp [h]
  have hoverlap : (∃ a b, [a, b].Subperm changes ∧ a.Overlaps b) ↔ ¬changes.Pairwise Change.Apart := by
    rw [pairwise_iff_forall_subperm Change.Apart.symm]
    simp only [Change.Apart, not_forall, not_and_or, not_not, exists_prop]
    constructor
    · rintro ⟨a, b, hpair, hab⟩
      exact ⟨a, b, hpair, .inl hab⟩
    · rintro ⟨a, b, hpair, hab | hba⟩
      · exact ⟨a, b, hpair, hab⟩
      · exact ⟨b, a, (List.Perm.swap b a []).symm.subperm.trans hpair, hba⟩
  constructor
  · rw [hrefused, hfits, hoverlap, ← not_and_or]
    exact not_congr (validate_eq_ok_iff_apart hspans)
  · by_cases hvalid : validate t changes = .ok ()
    · exact .inr (exists_ok_of_validate hspans anchors hvalid)
    · exact .inl (hrefused.mpr hvalid)

/-- Two changes that overlap, with an empty one between them in the list and in the order of the
check. -/
theorem applyChanges_refuses_iff_around_insertion :
    let t : Text := "abcdef"
    let changes := [Change.make t "f.js" 2 5 "x", Change.make t "f.js" 3 3 "y",
      Change.make t "f.js" 4 6 "z"]
    (∀ c ∈ changes, c.HasSpan) ∧
      (∃ a b, [a, b].Subperm changes ∧ a.Overlaps b) ∧
      ∃ p, applyChanges t changes [] = .error (.problem p) ∧ p.cause.kind = .misplaced := by
  intro t changes
  have hspans : ∀ c ∈ changes, c.HasSpan := by
    simp only [changes, forall_mem_cons, not_mem_nil, false_imp_iff, implies_true, and_true]
    exact ⟨⟨2, 5, rfl, rfl⟩, ⟨3, 3, rfl, rfl⟩, ⟨4, 6, rfl, rfl⟩⟩
  have hoverlap : ∃ a b, [a, b].Subperm changes ∧ a.Overlaps b := by
    refine ⟨Change.make t "f.js" 2 5 "x", Change.make t "f.js" 4 6 "z", ?_, by decide⟩
    exact ((List.Sublist.refl _).cons _ |>.cons_cons _).subperm
  exact ⟨hspans, hoverlap, (applyChanges_refuses_iff t changes [] hspans).1.mpr (.inr hoverlap)⟩

end Phrasebook
