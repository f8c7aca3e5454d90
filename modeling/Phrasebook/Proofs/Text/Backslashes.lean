import Mathlib.Data.List.TakeWhile
import Mathlib.Tactic.SplitIfs
import Phrasebook.Message.Canonical

/-!
# Runs of backslashes

Two backslashes are one that is spelled, so it is the parity of the run before a character that tells whether
this character is escaped.

## Main results

* `endingBackslashes_append_mod_two` — a part of a text that ends with an even run does not change this for
  what follows.
* `escapeInduction` — so texts can be read escape by escape, from the front.
-/

namespace Phrasebook

open List

variable {c : CodePoint} {u : Text}

/-- How many backslashes a text ends with. -/
def endingBackslashes (t : Text) : Nat := backslashes t.reverse

/-- The run at the end of two texts. -/
lemma endingBackslashes_append (u v : Text) :
    endingBackslashes (u ++ v) =
      if endingBackslashes v = v.length then v.length + endingBackslashes u else endingBackslashes v := by
  rw [endingBackslashes, endingBackslashes, endingBackslashes, backslashes, backslashes, backslashes,
    reverse_append, takeWhile_append, length_reverse]
  split_ifs
  · rw [length_append, length_reverse]
  · rfl

@[simp]
lemma endingBackslashes_nil : endingBackslashes [] = 0 := rfl

lemma endingBackslashes_concat (hc : c ≠ '\\') (u : Text) : endingBackslashes (u ++ [c]) = 0 := by
  rw [endingBackslashes, backslashes, reverse_append, reverse_singleton, singleton_append,
    takeWhile_cons_of_neg (by simpa using hc)]
  rfl

/-- **What ends with an even run** does not matter for the parity of a run behind it. -/
theorem endingBackslashes_append_mod_two (hu : endingBackslashes u % 2 = 0) (v : Text) :
    endingBackslashes (u ++ v) % 2 = endingBackslashes v % 2 := by
  rw [endingBackslashes_append]
  split_ifs with hall
  · rw [hall]
    omega
  · rfl

/-- A character that is no backslash, and a whole escape, end with an even run. -/
lemma endingBackslashes_singleton (hc : c ≠ '\\') : endingBackslashes [c] = 0 :=
  endingBackslashes_concat hc []

/-- An escape ends with an even run. -/
lemma endingBackslashes_escape (c : CodePoint) : endingBackslashes ['\\', c] % 2 = 0 := by
  by_cases hc : c = '\\'
  · rw [hc]
    rfl
  · exact congrArg (· % 2) (endingBackslashes_concat hc ['\\'])

/-- **Texts are read escape by escape**: a character that is no backslash, a backslash and the character
behind it, or a backslash at the end. -/
@[elab_as_elim]
theorem escapeInduction {motive : Text → Prop} (nil : motive []) (last : motive [.scalar '\\'])
    (escape : ∀ c rest, motive rest → motive (.scalar '\\' :: c :: rest))
    (plain : ∀ c rest, c ≠ .scalar '\\' → motive rest → motive (c :: rest)) : ∀ t, motive t
  | [] => nil
  | [c] => if hc : c = .scalar '\\' then hc ▸ last else plain c [] hc nil
  | c :: d :: rest =>
    if hc : c = .scalar '\\' then hc ▸ escape d rest (escapeInduction nil last escape plain rest)
    else plain c (d :: rest) hc (escapeInduction nil last escape plain (d :: rest))

/-- **A text that occurs only escaped** in another one: behind an odd run of backslashes. -/
def IsEscapedIn (w t : Text) : Prop :=
  ∀ i < t.length, w <+: t.drop i → endingBackslashes (t.take i) % 2 = 1

instance (w t : Text) : Decidable (IsEscapedIn w t) :=
  inferInstanceAs (Decidable (∀ i < t.length, w <+: t.drop i → endingBackslashes (t.take i) % 2 = 1))

namespace IsEscapedIn

variable {w t : Text}

lemma nil (w : Text) : IsEscapedIn w [] := fun _ hi => absurd hi (Nat.not_lt_zero _)

/-- Occurrences in a text behind another one that ends with an even run, if none begins in the other one. -/
lemma append_left (hu : endingBackslashes u % 2 = 0) (h : IsEscapedIn w t)
    (hfirst : ∀ i < u.length, w <+: (u ++ t).drop i → endingBackslashes ((u ++ t).take i) % 2 = 1) :
    IsEscapedIn w (u ++ t) := by
  intro i hi hw
  rcases lt_or_ge i u.length with hlt | hge
  · exact hfirst i hlt hw
  · obtain ⟨j, rfl⟩ := Nat.exists_eq_add_of_le hge
    rw [length_append] at hi
    rw [drop_length_add_append] at hw
    rw [take_length_add_append, endingBackslashes_append_mod_two hu]
    exact h j (by omega) hw

/-- **A character in front** at which there is no occurrence. -/
theorem cons (hc : c ≠ '\\') (hno : ¬ w <+: c :: t) (h : IsEscapedIn w t) :
    IsEscapedIn w (c :: t) := by
  refine h.append_left (u := [c]) (by rw [endingBackslashes_singleton hc]) fun i hi hw => ?_
  obtain rfl : i = 0 := by simpa using hi
  exact absurd hw hno

/-- **An escape in front.** -/
theorem escape {first : CodePoint} {rest : Text} (hfirst : first ≠ '\\') (c : CodePoint)
    (h : IsEscapedIn (first :: rest) t) : IsEscapedIn (first :: rest) ('\\' :: c :: t) := by
  refine h.append_left (u := ['\\', c]) (endingBackslashes_escape c) fun i hi hw => ?_
  have hcases : i = 0 ∨ i = 1 := by
    simp only [length_cons, length_nil] at hi
    omega
  rcases hcases with rfl | rfl
  · exact absurd (cons_prefix_cons.mp hw).1 hfirst
  · rfl

end IsEscapedIn

end Phrasebook
