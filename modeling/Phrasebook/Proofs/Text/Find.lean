import Mathlib.Data.List.Infix
import Mathlib.Data.Nat.Find
import Mathlib.Tactic.SplitIfs
import Phrasebook.Text.Basic

/-!
# Searching in a text

How the place where a text is found depends on the text around it follows without another look at the
search.

## Main results

* `Text.find?_eq_some_iff` — a text is found at the first place where it stands in another.
-/

namespace Phrasebook

open List Option

variable {c : CodePoint} {m : Nat}

namespace Text

variable {needle t : Text} {n start : Nat}

lemma find?_cons_of_pos (h : needle <+: c :: t) : find? needle (c :: t) = some 0 := by
  rw [find?, if_pos (List.isPrefixOf_iff_prefix.mpr h)]

lemma find?_cons_of_neg (h : ¬ needle <+: c :: t) :
    find? needle (c :: t) = (find? needle t).map (· + 1) := by
  rw [find?, if_neg fun hp => h (List.isPrefixOf_iff_prefix.mp hp)]

/-- **Where a text is found**: where it stands, and at no place before does it stand. -/
theorem find?_eq_some_iff :
    find? needle t = some n ↔ needle <+: t.drop n ∧ ∀ m < n, ¬ needle <+: t.drop m := by
  induction t generalizing n with
  | nil =>
    simp only [find?, List.isEmpty_iff, drop_nil, prefix_nil]
    split_ifs with hempty
    · cases n with
      | zero => simp [hempty]
      | succ n => exact iff_of_false (by simp) fun h => h.2 0 (Nat.succ_pos n) hempty
    · simp [hempty]
  | cons c t ih =>
    by_cases hstarts : needle <+: c :: t
    · rw [find?_cons_of_pos hstarts]
      cases n with
      | zero => simp [hstarts]
      | succ n => exact iff_of_false (by simp) fun h => h.2 0 (Nat.succ_pos n) hstarts
    · rw [find?_cons_of_neg hstarts]
      cases n with
      | zero => simp [hstarts]
      | succ n =>
        rw [map_eq_some_iff, drop_succ_cons]
        simp only [Nat.add_right_cancel_iff, exists_eq_right, ih]
        refine and_congr_right fun _ => ⟨fun h m hm => ?_, fun h m hm => h (m + 1) (by omega)⟩
        cases m with
        | zero => exact hstarts
        | succ m => exact h m (by omega)

/-- What is found is there. -/
lemma exists_of_find? (h : find? needle t = some n) :
    ∃ u r, t = u ++ (needle ++ r) ∧ u.length = n := by
  obtain ⟨⟨r, hr⟩, hfirst⟩ := find?_eq_some_iff.mp h
  refine ⟨t.take n, r, by rw [hr, take_append_drop], length_take_of_le ?_⟩
  by_contra hlt
  have hnil : needle = [] := prefix_nil.mp ⟨r, by rw [hr, drop_eq_nil_of_le (by omega)]⟩
  exact hfirst 0 (by omega) (hnil ▸ nil_prefix)

/-- What is there is found. -/
lemma exists_find?_le (needle u r : Text) : ∃ n ≤ u.length, find? needle (u ++ (needle ++ r)) = some n := by
  have hstands : ∃ n, needle <+: (u ++ (needle ++ r)).drop n := ⟨u.length, by simp⟩
  classical
  refine ⟨Nat.find hstands, Nat.find_min' hstands (by simp), ?_⟩
  exact find?_eq_some_iff.mpr ⟨Nat.find_spec hstands, fun m hm => Nat.find_min hstands hm⟩

lemma find?_le (h : find? needle t = some n) : n + needle.length ≤ t.length := by
  obtain ⟨u, r, rfl, rfl⟩ := exists_of_find? h
  simp only [length_append]
  omega

lemma findFrom?_le (h : findFrom? needle t start = some n) :
    start ≤ n ∧ n + needle.length ≤ t.length := by
  rw [findFrom?] at h
  split_ifs at h with hstart
  obtain ⟨n, hn, rfl⟩ := map_eq_some_iff.mp h
  have hle := find?_le hn
  rw [length_drop] at hle
  omega

/-- What is found in a text is found in a longer one: before it, the longer text has nothing that the
text does not have. -/
theorem find?_append (h : find? needle t = some n) (r : Text) : find? needle (t ++ r) = some n := by
  have hle := find?_le h
  obtain ⟨hstands, hfirst⟩ := find?_eq_some_iff.mp h
  have hdrop : ∀ m ≤ n, (t ++ r).drop m = t.drop m ++ r := fun m hm =>
    drop_append_of_le_length (by omega)
  refine find?_eq_some_iff.mpr ⟨hdrop n (le_refl n) ▸ hstands.trans (prefix_append _ _), ?_⟩
  intro m hm hearlier
  rw [hdrop m hm.le] at hearlier
  refine hfirst m hm (prefix_of_prefix_length_le hearlier (prefix_append _ r) ?_)
  rw [length_drop]
  omega

/-- More text behind it changes nothing. -/
lemma findFrom?_append (h : findFrom? needle t start = some n) (r : Text) :
    findFrom? needle (t ++ r) start = some n := by
  rw [findFrom?] at h ⊢
  split_ifs at h with hstart
  obtain ⟨n, hn, rfl⟩ := map_eq_some_iff.mp h
  rw [if_pos (by rw [length_append]; omega), drop_append_of_le_length hstart, find?_append hn]
  rfl

/-- What is found in a text is found where the text goes on no further. -/
theorem find?_take (h : find? needle t = some n) (hm : n + needle.length ≤ m) :
    find? needle (t.take m) = some n := by
  obtain ⟨hstands, hfirst⟩ := find?_eq_some_iff.mp h
  refine find?_eq_some_iff.mpr ⟨?_, fun k hk hearlier => hfirst k hk ?_⟩
  · rw [drop_take]
    exact prefix_take_iff.mpr ⟨hstands, by omega⟩
  · rw [drop_take] at hearlier
    exact hearlier.trans (List.take_prefix _ _)

/-- Less text behind it changes nothing. -/
lemma findFrom?_take (h : findFrom? needle t start = some n)
    (hm : n + needle.length ≤ m) : findFrom? needle (t.take m) start = some n := by
  obtain ⟨hle, -⟩ := findFrom?_le h
  rw [findFrom?] at h ⊢
  split_ifs at h with hstart
  obtain ⟨n, hn, rfl⟩ := map_eq_some_iff.mp h
  rw [if_pos (by rw [length_take]; omega), drop_take, find?_take hn (by omega)]
  rfl

end Text

end Phrasebook
