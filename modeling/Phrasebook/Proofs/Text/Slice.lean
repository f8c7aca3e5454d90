import Mathlib.Data.List.TakeDrop
import Mathlib.Data.List.TakeWhile
import Phrasebook.Text.Basic

/-!
# Cutting texts

A text is the sequence of its slices.

## Main results

* `Text.take_append_slice`, `Text.slice_append_slice`, `Text.slice_append_drop` — slices side by side.
* `Text.splice_eq` — a text in which a span is replaced, described from its end.
-/

namespace Phrasebook

open List

variable {a b start stop : Nat} {r t u : Text} {α : Type}

namespace Text

/-- A beginning, and the slice behind it. -/
theorem take_append_slice (t : Text) (h : a ≤ b) : t.take a ++ t.slice a b = t.take b := by
  obtain ⟨d, rfl⟩ := Nat.exists_eq_add_of_le h
  rw [slice, drop_take, Nat.add_sub_cancel_left, take_add]

lemma slice_eq_take_drop (t : Text) (a b : Nat) : t.slice a b = (t.drop a).take (b - a) := by
  rw [slice, drop_take]

/-- A part of a text is what stands between its offsets. -/
lemma slice_of_eq {whole : Text} (h : whole = u ++ (t ++ r))
    (hstart : start = u.length) (hstop : stop = start + t.length) : whole.slice start stop = t := by
  rw [h, hstop, hstart, slice_eq_take_drop, drop_left, Nat.add_sub_cancel_left, take_left]

/-- Two slices side by side. -/
theorem slice_append_slice (t : Text) {c : Nat} (hab : a ≤ b) (hbc : b ≤ c) :
    t.slice a b ++ t.slice b c = t.slice a c := by
  have hdrop : t.drop b = (t.drop a).drop (b - a) := by rw [drop_drop, Nat.add_sub_cancel' hab]
  rw [slice_eq_take_drop, slice_eq_take_drop, slice_eq_take_drop, hdrop, ← take_add]
  congr 1
  omega

/-- A slice, and what is behind it. -/
theorem slice_append_drop (t : Text) (h : a ≤ b) : t.slice a b ++ t.drop b = t.drop a := by
  have hdrop : t.drop b = (t.drop a).drop (b - a) := by rw [drop_drop, Nat.add_sub_cancel' h]
  rw [slice_eq_take_drop, hdrop, take_append_drop]

lemma length_slice (t : Text) (a b : Nat) : (t.slice a b).length = min b t.length - a := by
  rw [slice, length_drop, length_take]

lemma add_length_slice_le (t : Text) (h : a ≤ b) : a + (t.slice a b).length ≤ b := by
  rw [length_slice]
  omega

/-- **Replacing a span** of a text whose part behind the span has been rewritten already. -/
theorem splice_eq (t replacement following : Text) (h : start ≤ stop) (hstop : stop ≤ t.length) :
    Text.splice (t.take stop ++ following) start stop replacement =
      t.take start ++ (replacement ++ following) := by
  have hlen : (t.take stop).length = stop := length_take_of_le hstop
  rw [splice, take_append_of_le_length (by omega), take_take, min_eq_left h,
    drop_append_of_le_length (by omega), drop_eq_nil_of_le (by omega)]
  simp

/-- Inserting into a text behind a part of it leaves that part alone. -/
theorem splice_append_right (before following insertion : Text) (k : Nat) :
    Text.splice (before ++ following) (before.length + k) (before.length + k) insertion =
      before ++ (following.take k ++ (insertion ++ following.drop k)) := by
  rw [splice, take_append, drop_append, take_of_length_le (by omega),
    drop_eq_nil_of_le (by omega)]
  simp

end Text

/-! ## Runs of characters -/

/-- A run that ends before a character, with anything behind that character. -/
theorem takeWhile_append_stop {p : α → Bool} {stop : α} (hstop : p stop = false)
    (u r : List α) : (u ++ stop :: r).takeWhile p = u.takeWhile p := by
  induction u with
  | nil => simp [hstop]
  | cons c u ih =>
    cases hc : p c with
    | true => simp [hc, ih]
    | false => simp [hc]

/-- A run that ends where something else begins. -/
lemma takeWhile_append_of_head {p : CodePoint → Bool} (hu : ∀ c ∈ u, p c)
    (hr : ∀ c ∈ r.head?, p c = false) : (u ++ r).takeWhile p = u := by
  rw [takeWhile_append_of_pos hu]
  cases r with
  | nil => simp
  | cons c r => rw [takeWhile_cons_of_neg (by simp [hr c rfl]), append_nil]

/-- What a run ends before, if it does not reach the end. -/
lemma exists_of_length_takeWhile_lt {p : α → Bool} {t : List α} (h : (t.takeWhile p).length < t.length) :
    ∃ stop r, p stop = false ∧ t = t.takeWhile p ++ stop :: r := by
  induction t with
  | nil => simp at h
  | cons c t ih =>
    cases hc : p c with
    | true =>
      obtain ⟨stop, r, hstop, ht⟩ := ih (by simpa [hc] using h)
      exact ⟨stop, r, hstop, by simpa [hc] using ht⟩
    | false => exact ⟨c, t, hc, by simp [hc]⟩

/-- A run ends before a character that does not go on with it. -/
lemma length_takeWhile_lt {p : α → Bool} {t : List α} {c : α} (h : c ∈ t)
    (hc : p c = false) : (t.takeWhile p).length < t.length := by
  obtain ⟨u, r, rfl⟩ := append_of_mem h
  have hle : (u.takeWhile p).length ≤ u.length := (List.takeWhile_prefix p).length_le
  rw [takeWhile_append_stop hc, length_append, length_cons]
  omega

/-! ## Characters of texts -/

namespace Text

lemma slice_subset (t : Text) (a b : Nat) : t.slice a b ⊆ t := fun _ hc =>
  mem_of_mem_take (mem_of_mem_drop hc)

lemma trimRightWhile_subset (p : CodePoint → Bool) (t : Text) : t.trimRightWhile p ⊆ t := by
  intro c hc
  rw [trimRightWhile, mem_reverse] at hc
  exact mem_reverse.mp ((dropWhile_suffix p).subset hc)

/-- What is trimmed is a run at the end. -/
lemma exists_trimRightWhile (p : CodePoint → Bool) (t : Text) :
    ∃ r : Text, (∀ c ∈ r, p c) ∧ t.trimRightWhile p ++ r = t := by
  refine ⟨(t.reverse.takeWhile p).reverse, fun c hc => ?_, ?_⟩
  · exact mem_takeWhile_imp (mem_reverse.mp hc)
  · rw [trimRightWhile, ← reverse_append, takeWhile_append_dropWhile, reverse_reverse]

lemma trimWhile_subset (p : CodePoint → Bool) (t : Text) : t.trimWhile p ⊆ t :=
  List.Subset.trans (trimRightWhile_subset p _) (dropWhile_suffix p).subset

/-- A text occurs at the beginning of another only up to a character that does not stand in it. -/
lemma prefix_append_iff {needle : Text} (hu : ∀ c ∈ u.head?, c ∉ needle) :
    needle <+: t ++ u ↔ needle <+: t := by
  refine ⟨fun h => ?_, fun h => h.trans (prefix_append t u)⟩
  rcases prefix_or_prefix_of_prefix h (prefix_append t u) with hshort | ⟨r, hr⟩
  · exact hshort
  · -- what of it would lie beyond the text begins with the character
    subst hr
    have hrest : r <+: u := (prefix_append_right_inj t).mp h
    cases r with
    | nil => simp
    | cons c r =>
      obtain ⟨v, rfl⟩ := hrest
      exact absurd (mem_append_right t mem_cons_self) (hu c rfl)

lemma mem_join {separator : Text} {c : CodePoint} : ∀ {parts : List Text},
    c ∈ join separator parts → c ∈ separator ∨ ∃ part ∈ parts, c ∈ part
  | [], h => absurd h not_mem_nil
  | [part], h => .inr ⟨part, mem_cons_self, by simpa [join, List.intercalate] using h⟩
  | part :: next :: rest, h => by
    have hsplit : join separator (part :: next :: rest) =
        part ++ (separator ++ join separator (next :: rest)) := by
      simp [join, List.intercalate]
    rw [hsplit, mem_append, mem_append] at h
    rcases h with h | h | h
    · exact .inr ⟨part, mem_cons_self, h⟩
    · exact .inl h
    · exact (mem_join h).imp_right fun ⟨other, hother, hc⟩ =>
        ⟨other, mem_cons_of_mem part hother, hc⟩

end Text

end Phrasebook
