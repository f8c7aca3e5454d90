import Mathlib.Data.List.Basic
import Phrasebook.Text.Bytes

/-!
# Bytes and the characters they belong to

Parsers count bytes. The character of a byte is the last one that begins at or before it.

## Main results

* `Text.le_charOffset_iff` — turning bytes into characters is the adjoint of turning characters into bytes.
* `Text.charOffset_mono`, `Text.charOffset_byteLength_take` — it keeps the order, and leads back from the
  bytes at which characters begin.
-/

namespace Phrasebook

open List

variable {b n : Nat}

lemma CodePoint.byteLength_pos (c : CodePoint) : 0 < c.byteLength := by
  rw [byteLength]
  split_ifs <;> omega

namespace Text

variable (t : Text)

/-- A byte at which a character begins, or the end of the bytes. -/
def IsBoundary (byte : Nat) : Prop := ∃ n ≤ t.length, byteLength (t.take n) = byte

lemma byteLength_append (u v : Text) : byteLength (u ++ v) = byteLength u + byteLength v := by
  induction u with
  | nil => exact (Nat.zero_add _).symm
  | cons c u ih => rw [cons_append, byteLength, byteLength, ih, Nat.add_assoc]

/-- A beginning of a text has no more bytes than a longer one. -/
lemma byteLength_take_le {m : Nat} (h : m ≤ n) : byteLength (t.take m) ≤ byteLength (t.take n) := by
  rw [← take_append_drop m (t.take n), take_take, Nat.min_eq_left h, byteLength_append]
  exact Nat.le_add_right _ _

/-- In a text of ASCII a character is a byte. -/
lemma byteLength_eq_length {t : Text} (h : t.isAscii) : t.byteLength = t.length := by
  induction t with
  | nil => rfl
  | cons c rest ih =>
    obtain ⟨hc, hrest⟩ : c.byteLength = 1 ∧ Text.isAscii rest := by simpa [isAscii] using h
    rw [byteLength, ih hrest, hc, length_cons, Nat.add_comm]

lemma byteLength_take_of_isAscii {t : Text} (h : t.isAscii) (hn : n ≤ t.length) :
    byteLength (t.take n) = n := by
  have htake : Text.isAscii (t.take n) := by
    rw [isAscii, all_eq_true] at h ⊢
    exact fun c hc => h c (mem_of_mem_take hc)
  rw [byteLength_eq_length htake, length_take, Nat.min_eq_left hn]

/-- The character that begins at a byte, in a text that begins at an offset. -/
lemma charOfByteFrom_byteLength_take (h : n ≤ t.length) (offset : Nat) :
    charOfByteFrom offset t (byteLength (t.take n)) = some (offset + n) := by
  induction t generalizing n offset with
  | nil =>
    obtain rfl : n = 0 := by simpa using h
    rfl
  | cons c rest ih =>
    cases n with
    | zero => simp [charOfByteFrom, byteLength, c.byteLength_pos]
    | succ n =>
      rw [take_succ_cons, byteLength, charOfByteFrom, if_neg (by omega),
        Nat.add_sub_cancel_left, ih (by simpa using h)]
      congr 1
      omega

/-- **The character that begins at a byte.** -/
theorem charOffset_byteLength_take (h : n ≤ t.length) : t.charOffset (byteLength (t.take n)) = n := by
  rw [charOffset]
  split_ifs with hascii
  · exact byteLength_take_of_isAscii hascii h
  · simp [charOfByteFrom_byteLength_take t h]

variable {t}

/-- The character of a byte is the last one that begins at or before it. -/
lemma exists_charOfByteFrom (hb : b ≤ t.byteLength) (offset : Nat) :
    ∃ i ≤ t.length, charOfByteFrom offset t b = some (offset + i) ∧
      ∀ n ≤ t.length, n ≤ i ↔ byteLength (t.take n) ≤ b := by
  induction t generalizing b offset with
  | nil =>
    obtain rfl : b = 0 := Nat.le_zero.mp hb
    exact ⟨0, Nat.le_refl 0, rfl, fun n hn => by simp_all [byteLength]⟩
  | cons c rest ih =>
    rw [byteLength] at hb
    by_cases hlt : b < c.byteLength
    · refine ⟨0, Nat.zero_le _, by rw [charOfByteFrom, if_pos hlt, Nat.add_zero], fun n _ => ?_⟩
      cases n with
      | zero => simp [byteLength]
      | succ n =>
        rw [take_succ_cons, byteLength]
        omega
    · obtain ⟨i, hi, hchar, hiff⟩ := ih (by omega : b - c.byteLength ≤ byteLength rest) (offset + 1)
      refine ⟨i + 1, Nat.succ_le_succ hi, ?_, fun n hn => ?_⟩
      · rw [charOfByteFrom, if_neg hlt, hchar, Nat.add_assoc, Nat.add_comm 1]
      · cases n with
        | zero => simp [byteLength]
        | succ n =>
          have := hiff n (Nat.le_of_succ_le_succ hn)
          rw [take_succ_cons, byteLength]
          omega

/-- The short way for a text of ASCII leads to the same character. -/
lemma charOfByteFrom_eq_charOffset (hb : b ≤ t.byteLength) :
    charOfByteFrom 0 t b = some (t.charOffset b) := by
  rw [charOffset]
  split_ifs with hascii
  · have hlength : b ≤ t.length := by rwa [← byteLength_eq_length hascii]
    have hbegins := charOfByteFrom_byteLength_take t hlength 0
    rwa [byteLength_take_of_isAscii hascii hlength, Nat.zero_add] at hbegins
  · obtain ⟨i, -, hchar, -⟩ := exists_charOfByteFrom hb 0
    rw [hchar, Option.getD_some]

/-- **Characters that begin at or before a byte** are those up to its own. -/
theorem le_charOffset_iff (hb : b ≤ t.byteLength) :
    t.charOffset b ≤ t.length ∧ ∀ n ≤ t.length, n ≤ t.charOffset b ↔ byteLength (t.take n) ≤ b := by
  obtain ⟨i, hi, hchar, hiff⟩ := exists_charOfByteFrom hb 0
  rw [charOfByteFrom_eq_charOffset hb, Nat.zero_add] at hchar
  rw [Option.some.inj hchar]
  exact ⟨hi, hiff⟩

/-- **Bytes in order belong to characters in order.** -/
theorem charOffset_mono {a : Nat} (hab : a ≤ b) (hb : b ≤ t.byteLength) : t.charOffset a ≤ t.charOffset b := by
  obtain ⟨hlength, ha⟩ := le_charOffset_iff (Nat.le_trans hab hb)
  refine ((le_charOffset_iff hb).2 _ hlength).mpr ?_
  exact Nat.le_trans ((ha _ hlength).mp (Nat.le_refl _)) hab

/-- **A byte inside of a character** belongs to that character. -/
theorem charOffset_inside (before after : Text) (c : CodePoint) {k : Nat} (hk : k < c.byteLength) :
    charOffset (before ++ c :: after) (byteLength before + k) = before.length := by
  have hbegins : (before ++ c :: after).take before.length = before := take_left
  have hends : (before ++ c :: after).take (before.length + 1) = before ++ [c] :=
    take_length_add_append 1
  have hlength : before.length + 1 ≤ (before ++ c :: after).length := by simp
  have hbytes : byteLength before + k ≤ byteLength (before ++ c :: after) := by
    rw [byteLength_append, byteLength]
    omega
  obtain ⟨-, hiff⟩ := le_charOffset_iff hbytes
  have hlow := hiff before.length (by omega)
  have hhigh := hiff (before.length + 1) hlength
  rw [hbegins] at hlow
  rw [hends, byteLength_append, byteLength, byteLength] at hhigh
  omega

lemma IsBoundary.le {byte : Nat} (h : t.IsBoundary byte) : byte ≤ t.byteLength := by
  obtain ⟨n, hn, rfl⟩ := h
  have hle := byteLength_take_le t hn
  rwa [take_length] at hle

/-- **Of two bytes at which characters begin** the later one begins a later character. -/
theorem charOffset_lt {a : Nat} (ha : t.IsBoundary a) (hb : t.IsBoundary b) (h : a < b) :
    t.charOffset a < t.charOffset b := by
  obtain ⟨m, hm, rfl⟩ := ha
  obtain ⟨n, hn, rfl⟩ := hb
  rw [charOffset_byteLength_take t hm, charOffset_byteLength_take t hn]
  by_contra hle
  have := byteLength_take_le t (Nat.le_of_not_lt hle)
  omega

end Text

end Phrasebook
