import Mathlib.Tactic.SplitIfs
import Phrasebook.Message.Canonical
import Phrasebook.Proofs.Text.Slice

/-!
# Canonical message texts, run by run

The walk behind `canonicalize` decides about an expression where the run of backslashes before it
begins. So a text is best read in blocks: a run of backslashes, and what comes after it.

## Main results

* `canonicalFrom_run` — a run is copied, with what comes next if that is no expression.
* `canonicalFrom_live` — an expression behind an even run becomes a placeholder.
-/

namespace Phrasebook

open List

variable {c : CodePoint} {count : Nat} {inner rest : Text}

/-- A run of backslashes. -/
def escapes (k : Nat) : Text := List.replicate k '\\'

lemma escapes_succ (k : Nat) : escapes (k + 1) = .scalar '\\' :: escapes k := rfl

lemma embedded?_eq_none (h : c = '$' → rest.head? ≠ some '\x7b') :
    embedded? (c :: rest) = none := by
  rw [embedded?.eq_def]
  split
  · rename_i heq
    obtain ⟨rfl, rfl⟩ := List.cons.inj heq
    exact absurd rfl (h rfl)
  · rfl

/-- An expression without a closing brace in it, and its end. -/
lemma embedded?_eq_some_of_closed {inner rest : Text} (hne : inner ≠ [])
    (hbrace : ∀ c ∈ inner, c ≠ '\x7d') :
    embedded? ("$\x7b" ++ (inner ++ ("\x7d" ++ rest))) = some inner := by
  have htake : (inner ++ ("\x7d" ++ rest)).takeWhile (fun (c : CodePoint) => c != '\x7d') = inner :=
    takeWhile_append_of_pos (by simpa using hbrace) |>.trans (by
      simp [Text.ofString])
  show (let taken := (inner ++ ("\x7d" ++ rest)).takeWhile (fun (c : CodePoint) => c != '\x7d')
    if taken.isEmpty || taken.length == (inner ++ ("\x7d" ++ rest)).length then none else some taken) = _
  simp only [htake]
  rw [if_neg]
  simp [hne, Text.ofString]

/-- What can stand in an embedded expression. -/
structure IsEmbeddable (inner : Text) : Prop where
  ne_nil : inner ≠ []
  not_brace : ∀ c ∈ inner, c ≠ '\x7d'

lemma IsEmbeddable.embedded?_eq (h : IsEmbeddable inner) (rest : Text) :
    embedded? ("$\x7b" ++ (inner ++ ("\x7d" ++ rest))) = some inner :=
  embedded?_eq_some_of_closed h.ne_nil h.not_brace

/-- What is read as an embedded expression is one. -/
theorem exists_of_embedded? {t : Text} (h : embedded? t = some inner) :
    IsEmbeddable inner ∧ ∃ rest, t = "$\x7b" ++ (inner ++ ("\x7d" ++ rest)) := by
  rw [embedded?.eq_def] at h
  split at h
  · rename_i tail
    simp only at h
    split_ifs at h with hends
    obtain rfl := Option.some.inj h
    simp only [Bool.or_eq_true, List.isEmpty_iff, beq_iff_eq, not_or] at hends
    refine ⟨⟨hends.1, fun c hc => by simpa using mem_takeWhile_imp hc⟩, ?_⟩
    -- what follows the inside begins with a closing brace
    have hsplit := takeWhile_append_dropWhile (p := fun (c : CodePoint) => c != '\x7d') (l := tail)
    cases hdrop : tail.dropWhile (fun (c : CodePoint) => c != '\x7d') with
    | nil =>
      rw [hdrop, append_nil] at hsplit
      exact absurd (congrArg List.length hsplit) hends.2
    | cons c rest =>
      have hhead := head?_dropWhile_not (fun (c : CodePoint) => c != '\x7d') tail
      have hc : c = '\x7d' := by simpa [hdrop] using hhead
      rw [hdrop, hc] at hsplit
      exact ⟨rest, congrArg (fun u : Text => .scalar '$' :: .scalar '\x7b' :: u) hsplit.symm⟩
  · cases h

lemma backslashes_escapes (k : Nat) {t : Text} (h : t.head? ≠ some '\\') :
    backslashes (escapes k ++ t) = k := by
  have htake : (escapes k ++ t).takeWhile (fun (c : CodePoint) => c == '\\') =
      escapes k ++ t.takeWhile (fun (c : CodePoint) => c == '\\') :=
    takeWhile_append_of_pos (by simp [escapes])
  have hnil : t.takeWhile (fun (c : CodePoint) => c == '\\') = [] := by
    cases t with
    | nil => rfl
    | cons c t => exact takeWhile_cons_of_neg (by simpa using h)
  rw [backslashes, htake, hnil, append_nil, escapes, length_replicate]

/-- Behind a backslash, a run and the character after it are copied. -/
lemma canonicalFrom_true (k count : Nat) (hc : c ≠ '\\') (rest : Text) :
    canonicalFrom true 0 count (escapes k ++ c :: rest) =
      escapes k ++ c :: canonicalFrom false 0 count rest := by
  have hbeq : (c == '\\') = false := beq_false_of_ne hc
  induction k with
  | zero =>
    show canonicalFrom true 0 count (c :: rest) = c :: canonicalFrom false 0 count rest
    simp [canonicalFrom, hbeq]
  | succ k ih =>
    rw [escapes_succ, cons_append, cons_append, canonicalFrom, ← ih]
    simp

/-- **A run that leaves no expression live** is copied, with the character behind it. -/
theorem canonicalFrom_run {k : Nat} (hc : c ≠ '\\') (h : k % 2 = 1 ∨ embedded? (c :: rest) = none) :
    canonicalFrom false 0 count (escapes k ++ c :: rest) =
      escapes k ++ c :: canonicalFrom false 0 count rest := by
  have hbeq : (c == '\\') = false := beq_false_of_ne hc
  have hrun : backslashes (escapes k ++ c :: rest) = k := backslashes_escapes k (by simpa using hc)
  have hdrop : (escapes k ++ c :: rest).drop k = c :: rest := by simp [escapes]
  cases k with
  | zero =>
    have hnone : embedded? (c :: rest) = none := h.resolve_left (by simp)
    have hzero : backslashes (c :: rest) = 0 := hrun
    show canonicalFrom false 0 count (c :: rest) = c :: canonicalFrom false 0 count rest
    simp [canonicalFrom, hzero, hnone, hbeq]
  | succ k =>
    have hcopied := canonicalFrom_true k count hc rest
    rw [escapes_succ, cons_append] at hrun hdrop ⊢
    rw [canonicalFrom]
    simp only [hrun, hdrop]
    rcases h with hodd | hnone
    · simp [hodd, hcopied]
    · simp [hnone, hcopied]

/-- A run at the end of a text is copied. -/
lemma canonicalFrom_escapes (after : Bool) (k count : Nat) :
    canonicalFrom after 0 count (escapes k) = escapes k := by
  induction k generalizing after with
  | zero => rfl
  | succ k ih =>
    have hrun : backslashes (escapes (k + 1)) = k + 1 := by
      simpa using @backslashes_escapes (k + 1) [] (by simp)
    have hdrop : (escapes (k + 1)).drop (k + 1) = [] := by simp [escapes]
    rw [escapes_succ] at hrun hdrop ⊢
    rw [canonicalFrom]
    simp only [hrun, hdrop]
    split_ifs <;> simp [embedded?, ih]

/-- What belongs to the last expression is passed over. -/
lemma canonicalFrom_skip {after : Bool} {u : Text} {skip : Nat} (hskip : skip = u.length)
    (hafter : u = [] → after = false) :
    canonicalFrom after skip count (u ++ rest) = canonicalFrom false 0 count rest := by
  induction u generalizing after skip with
  | nil => rw [hskip, hafter rfl, length_nil, nil_append]
  | cons c u ih =>
    rw [hskip, length_cons, cons_append, canonicalFrom, ih rfl fun _ => rfl]

/-- **An expression behind an even run** becomes a placeholder. -/
theorem canonicalFrom_live {k : Nat} (heven : k % 2 = 0) (hne : inner ≠ [])
    (hbrace : ∀ c ∈ inner, c ≠ '\x7d') (rest : Text) :
    canonicalFrom false 0 count (escapes k ++ ("$\x7b" ++ (inner ++ ("\x7d" ++ rest)))) =
      escapes k ++ (placeholder (count + 1) ++ canonicalFrom false 0 (count + 1) rest) := by
  have hembedded := @embedded?_eq_some_of_closed inner rest hne hbrace
  have hrun : backslashes (escapes k ++ ("$\x7b" ++ (inner ++ ("\x7d" ++ rest)))) = k :=
    backslashes_escapes k (by simp [Text.ofString])
  have hdrop : (escapes k ++ ("$\x7b" ++ (inner ++ ("\x7d" ++ rest)))).drop k =
      "$\x7b" ++ (inner ++ ("\x7d" ++ rest)) := by simp [escapes]
  have htake : (escapes k ++ ("$\x7b" ++ (inner ++ ("\x7d" ++ rest)))).take k = escapes k := by
    simp [escapes]
  -- the first character, and the others that belong to the expression
  obtain ⟨c, u, hsplit, hlength⟩ : ∃ (c : CodePoint) (u : Text),
      escapes k ++ ("$\x7b" ++ (inner ++ ("\x7d" ++ rest))) = c :: (u ++ rest) ∧
        u.length = k + inner.length + 2 := by
    cases k with
    | zero =>
      refine ⟨'$', '\x7b' :: (inner ++ Text.ofString "\x7d"), ?_, ?_⟩
      · simp [escapes, Text.ofString]
      · simp [Text.ofString]
    | succ k =>
      refine ⟨.scalar '\\', escapes k ++ ("$\x7b" ++ (inner ++ Text.ofString "\x7d")), ?_, ?_⟩
      · simp only [escapes_succ, cons_append, append_assoc]
      · simp [escapes, Text.ofString]
        omega
  rw [hsplit] at hrun hdrop htake ⊢
  rw [canonicalFrom]
  simp only [hrun, hdrop, htake, heven, hembedded]
  rw [canonicalFrom_skip hlength.symm fun hnil => by simp [hnil] at hlength]
  simp [append_assoc]

end Phrasebook
