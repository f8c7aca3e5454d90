import Phrasebook.Proofs.Text.Blank
import Phrasebook.Proofs.Text.Slice
import Phrasebook.Text.Utf8

/-!
# Texts that can be written out

## Main results

* `Text.isEncodable_iff` — a text without surrogates can be written out.
* `Text.isEncodable_of_subset`, `Text.isEncodable_replaceAll`, `Text.isEncodable_join` — so can whatever is
  cut out of such texts, or put together from them.
-/

namespace Phrasebook.Text

open List

variable {t u : Text}

/-- A text can be written out if none of its characters is a surrogate. -/
theorem isEncodable_iff : t.isEncodable ↔ ∀ c ∈ t, c.isSurrogate = false := by
  simp [isEncodable]

/-- A text all of whose characters stand in one that can be written out. -/
theorem isEncodable_of_subset (h : t ⊆ u) (hu : u.isEncodable) : t.isEncodable :=
  isEncodable_iff.mpr fun c hc => isEncodable_iff.mp hu c (h hc)

@[simp]
lemma isEncodable_nil : isEncodable [] := rfl

@[simp]
lemma isEncodable_cons (c : CodePoint) (t : Text) :
    isEncodable (c :: t) = (!c.isSurrogate && t.isEncodable) := rfl

@[simp]
lemma isEncodable_append (t u : Text) :
    isEncodable (t ++ u) = (t.isEncodable && u.isEncodable) := by
  simp [isEncodable]

@[simp]
lemma isSurrogate_scalar (c : Char) : (CodePoint.scalar c).isSurrogate = false := rfl

@[simp]
lemma isEncodable_map_scalar (l : List Char) : isEncodable (l.map .scalar) := by
  simp [isEncodable]

@[simp]
lemma isEncodable_ofString (s : String) : (ofString s).isEncodable :=
  isEncodable_map_scalar s.toList

@[simp]
lemma isEncodable_ofNat (n : Nat) : (ofNat n).isEncodable :=
  isEncodable_map_scalar _

@[simp]
lemma isEncodable_ofInt (n : Int) : (ofInt n).isEncodable := by
  cases n with
  | ofNat n => exact isEncodable_ofNat n
  | negSucc n =>
    rw [ofInt, isEncodable_cons, isEncodable_ofNat]
    rfl

@[simp]
lemma isEncodable_hex (width n : Nat) : (hex width n).isEncodable := by
  rw [hex, isEncodable_append, isEncodable_map_scalar, Bool.and_true, isEncodable_iff]
  intro c hc
  rw [eq_of_mem_replicate hc]
  rfl

/-- The search for surrogates finds none in a text that can be written out. -/
theorem firstSurrogates?_eq_none_iff {position : Nat} :
    firstSurrogates? position t = none ↔ t.isEncodable := by
  induction t generalizing position with
  | nil => simp [firstSurrogates?]
  | cons c t ih =>
    rw [firstSurrogates?, isEncodable_cons]
    cases c.isSurrogate <;> simp [ih]

/-- A class of characters given by ranges that leave the surrogates out. -/
lemma isSurrogate_of_inRanges {ranges : List (Nat × Nat)} (hapart : ∀ r ∈ ranges, r.2 < 0xD800 ∨ 0xDFFF < r.1)
    {c : CodePoint} (h : inRanges ranges c.toNat) : c.isSurrogate = false := by
  cases c with
  | scalar c => rfl
  | surrogate offset =>
    have hnumber : (CodePoint.surrogate offset).toNat = 0xD800 + offset.val := rfl
    obtain ⟨r, hr, hin⟩ := any_eq_true.mp h
    simp only [Bool.and_eq_true, decide_eq_true_eq, hnumber] at hin
    have hbeside := hapart r hr
    omega

lemma isEncodable_of_isBlank (h : t.IsBlank) : t.isEncodable :=
  isEncodable_iff.mpr fun c hc => isSurrogate_of_inRanges (by decide) (h c hc)

/-! ## Cutting -/

lemma isEncodable_slice (h : t.isEncodable) (start stop : Nat) :
    (t.slice start stop).isEncodable :=
  isEncodable_of_subset (fun _ hc => mem_of_mem_take (mem_of_mem_drop hc)) h

lemma isEncodable_take (h : t.isEncodable) (n : Nat) : isEncodable (t.take n) :=
  isEncodable_of_subset (take_subset n t) h

lemma isEncodable_drop (h : t.isEncodable) (n : Nat) : isEncodable (t.drop n) :=
  isEncodable_of_subset (drop_subset n t) h

lemma isEncodable_trimRightWhile (h : t.isEncodable) (p : CodePoint → Bool) :
    (t.trimRightWhile p).isEncodable :=
  isEncodable_of_subset (trimRightWhile_subset p t) h

lemma isEncodable_trimWhile (h : t.isEncodable) (p : CodePoint → Bool) :
    (t.trimWhile p).isEncodable :=
  isEncodable_of_subset (trimWhile_subset p t) h

/-! ## Putting together -/

lemma isEncodable_splice (ht : t.isEncodable) (hu : u.isEncodable) (start stop : Nat) :
    (t.splice start stop u).isEncodable := by
  rw [splice, isEncodable_append, isEncodable_append, isEncodable_take ht, hu, isEncodable_drop ht]
  rfl

@[simp]
lemma isEncodable_newline (t : Text) : t.newline.isEncodable :=
  isEncodable_of_isBlank t.isBlank_newline

/-- A text with replacements. -/
theorem isEncodable_replaceAll {old new : Text} (ht : t.isEncodable)
    (hnew : new.isEncodable) : (t.replaceAll old new).isEncodable := by
  have hwalk : ∀ (t : Text) (skip : Nat), t.isEncodable →
      (replaceFrom old new skip t).isEncodable := by
    intro t
    induction t with
    | nil => exact fun _ _ => rfl
    | cons c rest ih =>
      intro skip h
      rw [isEncodable_cons, Bool.and_eq_true] at h
      cases skip with
      | succ skip => exact ih skip h.2
      | zero =>
        rw [replaceFrom]
        split_ifs
        · rw [isEncodable_append, hnew, ih _ h.2]
          rfl
        · rw [isEncodable_cons, h.1, ih _ h.2]
          rfl
  exact hwalk t 0 ht

lemma isEncodable_flatMap {f : CodePoint → Text} (h : ∀ c ∈ t, (f c).isEncodable) :
    isEncodable (t.flatMap f) := by
  refine isEncodable_iff.mpr fun c hc => ?_
  obtain ⟨d, hd, hc⟩ := mem_flatMap.mp hc
  exact isEncodable_iff.mp (h d hd) c hc

/-- A list of texts. -/
theorem isEncodable_join {separator : Text} {parts : List Text}
    (hseparator : separator.isEncodable) (h : ∀ part ∈ parts, part.isEncodable) :
    (join separator parts).isEncodable := by
  refine isEncodable_iff.mpr fun c hc => ?_
  rcases mem_join hc with hc | ⟨part, hpart, hc⟩
  · exact isEncodable_iff.mp hseparator c hc
  · exact isEncodable_iff.mp (h part hpart) c hc

end Phrasebook.Text
