import Mathlib.Tactic.SplitIfs
import Phrasebook.Text.Basic

/-!
# The order of texts

Texts are compared code point by code point.

## Main results

* `CodePoint.eq_of_toNat_eq` — a code point is known by its number, since no scalar value has the number of
  a surrogate.
* `Text.ble_total`, `Text.ble_trans`, `Text.ble_antisymm` — the order is linear.
-/

namespace Phrasebook

lemma CodePoint.toNat_scalar_ne (c : Char) (offset : Fin 2048) :
    (scalar c).toNat ≠ (surrogate offset).toNat := by
  have hvalid : c.toNat < 0xD800 ∨ (0xDFFF < c.toNat ∧ c.toNat < 0x110000) := c.valid
  have hoffset := offset.isLt
  simp only [toNat]
  omega

/-- **A code point is known by its number.** -/
theorem CodePoint.eq_of_toNat_eq : ∀ {a b : CodePoint}, a.toNat = b.toNat → a = b
  | scalar c, scalar d, h => congrArg scalar (Char.toNat_inj.mp h)
  | scalar c, surrogate offset, h => absurd h (toNat_scalar_ne c offset)
  | surrogate offset, scalar c, h => absurd h.symm (toNat_scalar_ne c offset)
  | surrogate x, surrogate y, h => by
    have hval : x.val = y.val := Nat.add_left_cancel h
    exact congrArg surrogate (Fin.ext hval)

/-- A code point is found by its number. -/
theorem CodePoint.ofNat?_toNat : ∀ c : CodePoint, ofNat? c.toNat = some c
  | scalar c => by
    have hvalid : c.toNat.isValidChar := c.valid
    rw [toNat, ofNat?, if_pos hvalid, Char.ofNat_toNat]
  | surrogate offset => by
    have hinvalid : ¬ (0xD800 + offset.val).isValidChar := by
      have hlt := offset.isLt
      simp only [Nat.isValidChar]
      omega
    rw [toNat, ofNat?, if_neg hinvalid, dif_pos ⟨Nat.le_add_right _ _, by have := offset.isLt; omega⟩]
    simp

lemma CodePoint.toNat_scalar_ofNat {n : Nat} (h : n.isValidChar) : (scalar (Char.ofNat n)).toNat = n := by
  rw [toNat, Char.ofNat, dif_pos h]
  rfl

lemma CodePoint.toNat_of_ofNat? {n : Nat} {c : CodePoint} (h : ofNat? n = some c) : c.toNat = n := by
  rw [ofNat?] at h
  split_ifs at h with hvalid hhalf
  · obtain rfl := Option.some.inj h
    exact toNat_scalar_ofNat hvalid
  · obtain rfl := Option.some.inj h
    exact Nat.add_sub_of_le hhalf.1

namespace Text

/-- Any two texts can be compared. -/
theorem ble_total : ∀ s t : Text, ble s t ∨ ble t s
  | [], _ => .inl (by simp [ble])
  | _ :: _, [] => .inr (by simp [ble])
  | a :: s, b :: t => by
    by_cases hab : a = b
    · simpa [ble, hab] using ble_total s t
    · have hba : b ≠ a := fun h => hab h.symm
      simp only [ble, beq_iff_eq, hab, hba, if_false, CodePoint.ble, decide_eq_true_eq]
      omega

/-- Texts that begin with different code points are in the order of these. -/
lemma toNat_le_of_ble {a b : CodePoint} {s t : Text} (h : ble (a :: s) (b :: t)) :
    a.toNat ≤ b.toNat := by
  simp only [ble, beq_iff_eq] at h
  split_ifs at h with hab
  · exact Nat.le_of_eq (congrArg CodePoint.toNat hab)
  · simpa [CodePoint.ble] using h

/-- Two texts that are each at most the other are equal. -/
theorem ble_antisymm : ∀ {s t : Text}, ble s t → ble t s → s = t
  | [], [], _, _ => rfl
  | [], _ :: _, _, h => by simp [ble] at h
  | _ :: _, [], h, _ => by simp [ble] at h
  | a :: s, b :: t, hst, hts => by
    obtain rfl : a = b :=
      CodePoint.eq_of_toNat_eq (Nat.le_antisymm (toNat_le_of_ble hst) (toNat_le_of_ble hts))
    simp only [ble, beq_self_eq_true, if_true] at hst hts
    rw [ble_antisymm hst hts]

/-- The order is transitive. -/
theorem ble_trans : ∀ {s t u : Text}, ble s t → ble t u → ble s u
  | [], _, _, _, _ => by simp [ble]
  | _ :: _, [], _, h, _ => by simp [ble] at h
  | _ :: _, _ :: _, [], _, h => by simp [ble] at h
  | a :: s, b :: t, c :: u, hst, htu => by
    have hab := toNat_le_of_ble hst
    have hbc := toNat_le_of_ble htu
    by_cases hac : a = c
    · subst hac
      obtain rfl : a = b := CodePoint.eq_of_toNat_eq (Nat.le_antisymm hab hbc)
      simp only [ble, beq_self_eq_true, if_true] at hst htu ⊢
      exact ble_trans hst htu
    · simpa [ble, hac, CodePoint.ble] using Nat.le_trans hab hbc

end Text

end Phrasebook
