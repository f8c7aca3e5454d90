import Mathlib.Data.List.Pairwise
import Mathlib.Data.List.Sort
import Phrasebook.Sorting

/-!
# Stable sorting puts lists in order

The stable sort is insertion sort, so what the library of lists knows about that sort carries over. The
keys are lists of integers in lexicographic order, which is total.

## Main results

* `sortAscending_perm`, `pairwise_sortAscending` and those for `sortDescending` — what is sorted has the
  same elements, in order.
* `sortDescending_eq_of_perm`, `eq_of_perm_of_increasing` — there is one sorted list if no two keys are equal.
-/

namespace Phrasebook

open List

variable {α β : Type}

section Stable

variable {α : Type} (le : α → α → Bool)

/-- Inserting before the first element that may follow is the ordered insertion of lists. -/
lemma insertSorted_eq_orderedInsert (a : α) (l : List α) :
    insertSorted le a l = l.orderedInsert (fun x y => le x y = true) a := by
  induction l with
  | nil => rfl
  | cons b l ih => simp only [insertSorted, orderedInsert_cons, ih]

/-- Stable sorting is insertion sort. -/
theorem sortStable_eq_insertionSort (l : List α) :
    sortStable le l = l.insertionSort (fun x y => le x y = true) := by
  induction l with
  | nil => rfl
  | cons a l ih => rw [sortStable, insertSorted_eq_orderedInsert, ih, insertionSort_cons]

lemma sortStable_perm (l : List α) : (sortStable le l).Perm l := by
  rw [sortStable_eq_insertionSort]
  exact perm_insertionSort _ l

/-- Sorting by a total and transitive order puts a list in order. -/
lemma pairwise_sortStable (total : ∀ a b, le a b ∨ le b a)
    (trans : ∀ a b c, le a b → le b c → le a c) (l : List α) :
    (sortStable le l).Pairwise fun x y => le x y = true := by
  have : Std.Total fun x y => le x y = true := ⟨total⟩
  have : IsTrans α fun x y => le x y = true := ⟨trans⟩
  rw [sortStable_eq_insertionSort]
  exact pairwise_insertionSort _ l

/-- Inserting an element splits a list before the first one that may follow. -/
lemma insertSorted_eq_append (a : α) (l : List α) :
    insertSorted le a l = l.takeWhile (fun b => !le a b) ++ a :: l.dropWhile (fun b => !le a b) := by
  rw [insertSorted_eq_orderedInsert, orderedInsert_eq_take_drop]
  simp only [decide_not, Bool.decide_eq_true]

/-- Elements that may precede each other are inserted side by side, the last one first. -/
theorem insertSorted_insertSorted {a b : α} (hsame : ∀ c, le a c = le b c) (ha : le a a)
    (hb : le b b) (l : List α) : ∃ front back,
      insertSorted le a (insertSorted le b l) = front ++ a :: b :: back ∧
        insertSorted le b (insertSorted le a l) = front ++ b :: a :: back := by
  have hab : le a b := (hsame b).trans hb
  have hba : le b a := (hsame a).symm.trans ha
  induction l with
  | nil => exact ⟨[], [], by simp [insertSorted, hab], by simp [insertSorted, hba]⟩
  | cons c l ih =>
    cases hc : le b c with
    | true => exact ⟨[], c :: l, by simp [insertSorted, hc, hab],
        by simp [insertSorted, hsame c, hc, hba]⟩
    | false =>
      obtain ⟨front, back, hfirst, hsecond⟩ := ih
      exact ⟨c :: front, back, by simp [insertSorted, hsame c, hc, hfirst],
        by simp [insertSorted, hsame c, hc, hsecond]⟩

end Stable

/-! ## Lists of integers as keys -/

lemma keysLe_total : ∀ s t : List Int, keysLe s t ∨ keysLe t s
  | [], _ => .inl rfl
  | _ :: _, [] => .inr rfl
  | a :: s, b :: t => by
    by_cases hab : a = b
    · simpa [keysLe, hab] using keysLe_total s t
    · have hba : b ≠ a := fun h => hab h.symm
      simp only [keysLe, hab, hba, if_false, decide_eq_true_eq]
      omega

lemma keysLe_refl : ∀ s : List Int, keysLe s s
  | [] => rfl
  | _ :: s => by simpa [keysLe] using keysLe_refl s

lemma le_of_keysLe_cons {a b : Int} {s t : List Int} (h : keysLe (a :: s) (b :: t)) : a ≤ b := by
  simp only [keysLe] at h
  split_ifs at h with hab
  · exact hab.le
  · simpa using h

lemma keysLe_trans : ∀ s t u : List Int, keysLe s t → keysLe t u → keysLe s u
  | [], _, _, _, _ => rfl
  | _ :: _, [], _, h, _ => by simp [keysLe] at h
  | _ :: _, _ :: _, [], _, h => by simp [keysLe] at h
  | a :: s, b :: t, c :: u, hst, htu => by
    by_cases hac : a = c
    · subst hac
      by_cases hab : a = b
      · subst hab
        simp only [keysLe, if_true] at hst htu ⊢
        exact keysLe_trans s t u hst htu
      · have hba : b ≠ a := fun h => hab h.symm
        simp only [keysLe, hab, hba, if_false, decide_eq_true_eq] at hst htu
        omega
    · have hab : a ≤ b := le_of_keysLe_cons hst
      have hbc : b ≤ c := le_of_keysLe_cons htu
      simpa [keysLe, hac] using hab.trans hbc

section Keys

variable {α : Type} (key : α → List Int)

/-- Sorting loses nothing. -/
theorem sortAscending_perm (l : List α) : (sortAscending key l).Perm l := sortStable_perm _ l

/-- Sorting by keys, the greatest first, keeps the elements of a list. -/
theorem sortDescending_perm (l : List α) : (sortDescending key l).Perm l := sortStable_perm _ l

/-- What is sorted is in order. -/
theorem pairwise_sortAscending (l : List α) :
    (sortAscending key l).Pairwise fun a b => keysLe (key a) (key b) = true :=
  pairwise_sortStable (fun a b => keysLe (key a) (key b)) (fun _ _ => keysLe_total _ _)
    (fun _ _ _ => keysLe_trans _ _ _) l

/-- After sorting with the greatest first, no key comes before a greater one. -/
theorem pairwise_sortDescending (l : List α) :
    (sortDescending key l).Pairwise fun a b => keysLe (key b) (key a) = true :=
  pairwise_sortStable (fun a b => keysLe (key b) (key a)) (fun _ _ => keysLe_total _ _)
    (fun _ _ _ hab hbc => keysLe_trans _ _ _ hbc hab) l

variable {key}

/-- **Spans that do not overlap follow each other** once they are sorted by where they begin. -/
theorem pairwise_sortAscending_spans (span : α → Int × Int) (hkey : ∀ a, ∃ rest, key a = (span a).1 :: rest)
    {l : List α} (hne : ∀ a ∈ l, (span a).1 < (span a).2)
    (hapart : l.Pairwise fun a b => (span a).2 ≤ (span b).1 ∨ (span b).2 ≤ (span a).1) :
    (sortAscending key l).Pairwise fun a b => (span a).2 ≤ (span b).1 := by
  have hperm := sortAscending_perm key l
  have hapart' := hapart.perm hperm.symm Or.symm
  refine (hapart'.and (pairwise_sortAscending key l)).imp_of_mem ?_
  rintro a b - hb ⟨hab | hba, hle⟩
  · exact hab
  · -- `b` would end before `a` begins, and `a` does not begin behind `b`: then `b` were empty
    obtain ⟨restA, hA⟩ := hkey a
    obtain ⟨restB, hB⟩ := hkey b
    rw [hA, hB] at hle
    have hstart := le_of_keysLe_cons hle
    have hlt := hne b (hperm.mem_iff.mp hb)
    omega

end Keys

/-- Sorting commutes with maps. -/
theorem sortStable_map (f : α → β) (le : β → β → Bool) (l : List α) :
    sortStable le (l.map f) = (sortStable (fun a b => le (f a) (f b)) l).map f := by
  have hinsert : ∀ (a : α) (l : List α),
      insertSorted le (f a) (l.map f) = (insertSorted (fun a b => le (f a) (f b)) a l).map f := by
    intro a l
    induction l with
    | nil => rfl
    | cons b l ih =>
      simp only [map_cons, insertSorted]
      split_ifs
      · rfl
      · rw [ih, map_cons]
  induction l with
  | nil => rfl
  | cons a l ih => rw [map_cons, sortStable, ih, hinsert, sortStable]

/-! ## Elements with different keys -/

lemma keysLe_antisymm : ∀ {s t : List Int}, keysLe s t → keysLe t s → s = t
  | [], [], _, _ => rfl
  | [], _ :: _, _, h => by simp [keysLe] at h
  | _ :: _, [], h, _ => by simp [keysLe] at h
  | a :: s, b :: t, hst, hts => by
    obtain rfl : a = b := le_antisymm (le_of_keysLe_cons hst) (le_of_keysLe_cons hts)
    simp only [keysLe, if_true] at hst hts
    rw [keysLe_antisymm hst hts]

/-- Entries of a list with different keys are known by their keys. -/
lemma eq_of_key_eq {key : α → β} {l : List α} (h : l.Pairwise fun a b => key a ≠ key b)
    {a b : α} (ha : a ∈ l) (hb : b ∈ l) (hkey : key a = key b) : a = b := by
  have hsymm : Std.Symm fun a b => key a = key b → a = b := ⟨fun _ _ h e => (h e.symm).symm⟩
  have hinj : ∀ ⦃a⦄, a ∈ l → ∀ ⦃b⦄, b ∈ l → key a = key b → a = b :=
    List.Pairwise.forall_of_forall (fun _ _ _ => rfl) (h.imp fun hne heq => absurd heq hne)
  exact hinj ha hb hkey

/-- **Elements with different keys are sorted in one way**, however they are listed. -/
theorem sortDescending_eq_of_perm (key : α → List Int) {l₁ l₂ : List α} (hp : l₁.Perm l₂)
    (hne : l₁.Pairwise fun a b => key a ≠ key b) : sortDescending key l₁ = sortDescending key l₂ := by
  have hp₁ := sortDescending_perm key l₁
  have hp₂ := sortDescending_perm key l₂
  refine (hp₁.trans (hp.trans hp₂.symm)).eq_of_pairwise ?_ (pairwise_sortDescending key l₁)
    (pairwise_sortDescending key l₂)
  intro a b ha hb hab hba
  exact eq_of_key_eq hne (hp₁.mem_iff.mp ha) (hp.mem_iff.mpr (hp₂.mem_iff.mp hb))
    (keysLe_antisymm hba hab)

/-- **A strict order is the only one**: a list whose keys increase is equal to every list with the
same elements whose keys do not decrease. -/
theorem eq_of_perm_of_increasing (key : α → Int) {l₁ l₂ : List α} (hp : l₁.Perm l₂)
    (h₁ : l₁.Pairwise fun a b => key a < key b) (h₂ : l₂.Pairwise fun a b => key a ≤ key b) :
    l₁ = l₂ := by
  have hle : l₁.Pairwise fun a b => key a ≤ key b := h₁.imp fun hlt => hlt.le
  refine hp.eq_of_pairwise ?_ hle h₂
  intro a b ha hb hab hba
  exact eq_of_key_eq (h₁.imp fun hlt => hlt.ne) ha (hp.mem_iff.mpr hb) (le_antisymm hab hba)

/-- Sorting with the greatest first, read backwards: elements whose first keys increase are in that
order, however they are listed. -/
lemma reverse_sortDescending {key : α → List Int} (first : α → Int)
    (hkey : ∀ a, ∃ rest, key a = first a :: rest) {l l' : List α} (hp : l'.Perm l)
    (h : l.Pairwise fun a b => first a < first b) : (sortDescending key l').reverse = l := by
  refine (eq_of_perm_of_increasing first ?_ h (pairwise_reverse.mpr ?_)).symm
  · exact hp.symm.trans ((sortDescending_perm key l').symm.trans (reverse_perm _).symm)
  · refine (pairwise_sortDescending key l').imp fun {a b} hle => ?_
    obtain ⟨resta, ha⟩ := hkey a
    obtain ⟨restb, hb⟩ := hkey b
    rw [ha, hb] at hle
    exact le_of_keysLe_cons hle

end Phrasebook
