import Phrasebook.Proofs.Text.Encodable

/-!
# Reading back the bytes of a text

How many bytes a character takes can be seen from the first of them, so what follows does not matter.

## Main results

* `Text.exists_encode_decode` — the bytes of a text without surrogates are read back as that text.
-/

namespace Phrasebook

open List

variable {b : UInt8} {t : Text}

namespace Utf8

lemma toNat_toUInt8 {n : Nat} (h : n < 0x100) : n.toUInt8.toNat = n := by
  simp [Nat.mod_eq_of_lt h]

/-- The bytes that go on with a character, by their numbers. -/
lemma isContinuation_iff : isContinuation b ↔ 0x80 ≤ b.toNat ∧ b.toNat ≤ 0xBF := by
  simp [isContinuation, UInt8.le_iff_toNat_le]

/-- Which bytes can be second. -/
lemma isSecond_iff {a : UInt8} : isSecond a b ↔ isContinuation b ∧
    (a.toNat = 0xE0 → 0xA0 ≤ b.toNat) ∧ (a.toNat = 0xED → b.toNat < 0xA0) ∧
    (a.toNat = 0xF0 → 0x90 ≤ b.toNat) ∧ (a.toNat = 0xF4 → b.toNat < 0x90) := by
  simp [isSecond, ← UInt8.toNat_inj, UInt8.lt_iff_toNat_lt, UInt8.le_iff_toNat_le, and_assoc,
    imp_iff_not_or]

/-! ## Characters of one to four bytes -/

section Next

variable {a b c d : UInt8} (rest : List UInt8)

lemma next_one (ha : a.toNat < 0x80) : next a rest = .ok (point a.toNat, 1) := by
  unfold next
  rw [if_pos (UInt8.lt_iff_toNat_lt.mpr ha)]

lemma next_two (hlow : 0xC2 ≤ a.toNat) (hhigh : a.toNat < 0xE0) (hb : isContinuation b) :
    next a (b :: rest) = .ok (point ((a.toNat - 0xC0) * 0x40 + (b.toNat - 0x80)), 2) := by
  have hsecond : isSecond a b := isSecond_iff.mpr ⟨hb, by omega, by omega, by omega, by omega⟩
  have hfirst : ¬ a < 0x80 ∧ ¬ a < 0xC2 ∧ ¬ 0xF5 ≤ a ∧ a < 0xE0 := by
    simp only [UInt8.lt_iff_toNat_lt, UInt8.le_iff_toNat_le, UInt8.reduceToNat]
    omega
  simp [next, hsecond, hfirst]

lemma next_three (hlow : 0xE0 ≤ a.toNat) (hhigh : a.toNat < 0xF0) (hb : isSecond a b) (hc : isContinuation c) :
    next a (b :: c :: rest) =
      .ok (point ((a.toNat - 0xE0) * 0x1000 + (b.toNat - 0x80) * 0x40 + (c.toNat - 0x80)), 3) := by
  have hfirst : ¬ a < 0x80 ∧ ¬ a < 0xC2 ∧ ¬ 0xF5 ≤ a ∧ ¬ a < 0xE0 ∧ a < 0xF0 := by
    simp only [UInt8.lt_iff_toNat_lt, UInt8.le_iff_toNat_le, UInt8.reduceToNat]
    omega
  simp [next, hb, hc, hfirst]

lemma next_four (hlow : 0xF0 ≤ a.toNat) (hhigh : a.toNat < 0xF5) (hb : isSecond a b)
    (hc : isContinuation c) (hd : isContinuation d) :
    next a (b :: c :: d :: rest) = .ok (point ((a.toNat - 0xF0) * 0x40000 + (b.toNat - 0x80) * 0x1000
      + (c.toNat - 0x80) * 0x40 + (d.toNat - 0x80)), 4) := by
  have hfirst : ¬ a < 0x80 ∧ ¬ a < 0xC2 ∧ ¬ 0xF5 ≤ a ∧ ¬ a < 0xE0 ∧ ¬ a < 0xF0 := by
    simp only [UInt8.lt_iff_toNat_lt, UInt8.le_iff_toNat_le, UInt8.reduceToNat]
    omega
  simp [next, hb, hc, hd, hfirst]

end Next

lemma point_toNat (c : Char) : point c.toNat = .scalar c := by
  rw [point, Char.ofNat_toNat]

/-- **The bytes of a character begin with that character**, whatever follows. -/
theorem next_encodePoint (c : Char) (rest : List UInt8) :
    ∃ first others, Text.encodePoint (.scalar c) = first :: others ∧
      next first (others ++ rest) = .ok (.scalar c, others.length + 1) := by
  have hvalid : c.toNat < 0xD800 ∨ (0xDFFF < c.toNat ∧ c.toNat < 0x110000) := c.valid
  rw [← point_toNat c, Text.encodePoint]
  simp only [point_toNat, CodePoint.toNat]
  generalize hn : c.toNat = n at hvalid
  have hcontinuation : ∀ m, isContinuation (0x80 + m % 0x40).toUInt8 := by
    intro m
    rw [isContinuation_iff, toNat_toUInt8 (by omega)]
    omega
  have hlast : (0x80 + n % 0x40).toUInt8.toNat = 0x80 + n % 0x40 := toNat_toUInt8 (by omega)
  have hmiddle : (0x80 + n / 0x40 % 0x40).toUInt8.toNat = 0x80 + n / 0x40 % 0x40 :=
    toNat_toUInt8 (by omega)
  split_ifs with hone htwo hthree
  · have hfirst : n.toUInt8.toNat = n := toNat_toUInt8 (by omega)
    refine ⟨_, _, rfl, ?_⟩
    rw [next_one _ (by rwa [hfirst]), hfirst, ← hn, point_toNat]
    rfl
  · have hfirst : (0xC0 + n / 0x40).toUInt8.toNat = 0xC0 + n / 0x40 := toNat_toUInt8 (by omega)
    refine ⟨_, _, rfl, ?_⟩
    rw [singleton_append, next_two _ (by omega) (by omega) (hcontinuation n), hfirst, hlast,
      show (0xC0 + n / 0x40 - 0xC0) * 0x40 + (0x80 + n % 0x40 - 0x80) = n by omega, ← hn, point_toNat]
    rfl
  · have hfirst : (0xE0 + n / 0x1000).toUInt8.toNat = 0xE0 + n / 0x1000 := toNat_toUInt8 (by omega)
    have hsecond : isSecond (0xE0 + n / 0x1000).toUInt8 (0x80 + n / 0x40 % 0x40).toUInt8 := by
      rw [isSecond_iff, hfirst, hmiddle]
      exact ⟨hcontinuation _, by omega, by omega, by omega, by omega⟩
    refine ⟨_, _, rfl, ?_⟩
    rw [cons_append, singleton_append,
      next_three _ (by omega) (by omega) hsecond (hcontinuation n), hfirst, hmiddle, hlast,
      show (0xE0 + n / 0x1000 - 0xE0) * 0x1000 + (0x80 + n / 0x40 % 0x40 - 0x80) * 0x40 +
        (0x80 + n % 0x40 - 0x80) = n by omega, ← hn, point_toNat]
    rfl
  · have hfirst : (0xF0 + n / 0x40000).toUInt8.toNat = 0xF0 + n / 0x40000 := toNat_toUInt8 (by omega)
    have hnext : (0x80 + n / 0x1000 % 0x40).toUInt8.toNat = 0x80 + n / 0x1000 % 0x40 :=
      toNat_toUInt8 (by omega)
    have hsecond : isSecond (0xF0 + n / 0x40000).toUInt8 (0x80 + n / 0x1000 % 0x40).toUInt8 := by
      rw [isSecond_iff, hfirst, hnext]
      exact ⟨hcontinuation _, by omega, by omega, by omega, by omega⟩
    refine ⟨_, _, rfl, ?_⟩
    rw [cons_append, cons_append, singleton_append,
      next_four _ (by omega) (by omega) hsecond (hcontinuation _) (hcontinuation n), hfirst, hnext,
      hmiddle, hlast,
      show (0xF0 + n / 0x40000 - 0xF0) * 0x40000 + (0x80 + n / 0x1000 % 0x40 - 0x80) * 0x1000 +
        (0x80 + n / 0x40 % 0x40 - 0x80) * 0x40 + (0x80 + n % 0x40 - 0x80) = n by omega, ← hn, point_toNat]
    rfl

/-- The bytes that still belong to a character are passed over. -/
lemma decodeFrom_append (position : Nat) (bytes rest : List UInt8) :
    decodeFrom position bytes.length (bytes ++ rest) = decodeFrom (position + bytes.length) 0 rest := by
  induction bytes generalizing position with
  | nil => rfl
  | cons b bytes ih =>
    rw [length_cons, cons_append, decodeFrom, ih]
    congr 1
    omega

/-- A text that can be written out is read back, wherever it begins. -/
lemma decodeFrom_flatMap_encodePoint (h : t.isEncodable) (position : Nat) :
    decodeFrom position 0 (t.flatMap Text.encodePoint) = .ok t := by
  induction t generalizing position with
  | nil => rfl
  | cons c t ih =>
    cases c with
    | surrogate offset => cases h
    | scalar c =>
      obtain ⟨first, others, hbytes, hnext⟩ := next_encodePoint c (t.flatMap Text.encodePoint)
      rw [flatMap_cons, hbytes, cons_append, decodeFrom]
      simp only [hnext, Nat.add_sub_cancel, decodeFrom_append]
      rw [ih (by simpa using h)]
      rfl

end Utf8

/-- **A text that can be written out is read back from its bytes.** -/
theorem Text.exists_encode_decode (h : t.isEncodable) :
    ∃ bytes, t.encode = .ok bytes ∧ Utf8.decode bytes = .ok t := by
  refine ⟨t.flatMap encodePoint, ?_, Utf8.decodeFrom_flatMap_encodePoint h 0⟩
  rw [encode, firstSurrogates?_eq_none_iff.mpr h]

end Phrasebook
