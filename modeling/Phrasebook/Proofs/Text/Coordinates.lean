import Mathlib.Data.List.Induction
import Phrasebook.Proofs.Text.Bytes
import Phrasebook.Text.Utf8

/-!
# Three ways to name a place

A place in a text is an offset, a byte of its UTF-8 form, or a line and a column.

## Main results

* `Text.position_eq` — the position of an offset can be read off the text before it.
* `Text.offsetOf?_position` — the line table leads back.
* `Text.coordinates_agree` — the three ways agree.
-/

namespace Phrasebook.Text

open List

variable {t : Text} {o : Nat}

/-- What stands behind the last line feed. -/
def lastLine (t : Text) : Text := (t.reverse.takeWhile fun (c : CodePoint) => c != '\n').reverse

lemma offsetsAfterLineFeeds_append (position : Nat) (u v : Text) :
    offsetsAfterLineFeeds position (u ++ v) =
      offsetsAfterLineFeeds position u ++ offsetsAfterLineFeeds (position + u.length) v := by
  induction u generalizing position with
  | nil => rfl
  | cons c u ih =>
    simp only [cons_append, offsetsAfterLineFeeds, ih, length_cons, Nat.add_assoc,
      Nat.add_comm 1]
    split_ifs <;> rfl

lemma mem_offsetsAfterLineFeeds {position start : Nat} (h : start ∈ offsetsAfterLineFeeds position t) :
    position < start ∧ start ≤ position + t.length := by
  induction t generalizing position with
  | nil => cases h
  | cons c rest ih =>
    have hrest : start ∈ offsetsAfterLineFeeds (position + 1) rest →
        position < start ∧ start ≤ position + (rest.length + 1) := fun h => by
      have := ih h
      omega
    rw [offsetsAfterLineFeeds] at h
    split_ifs at h
    · rcases mem_cons.mp h with rfl | h
      · exact ⟨Nat.lt_succ_self _, by simp⟩
      · exact hrest h
    · exact hrest h

/-- The line starts of a text are those of its beginning, and others behind that. -/
lemma lineStarts_append (u v : Text) :
    lineStarts (u ++ v) = lineStarts u ++ offsetsAfterLineFeeds u.length v := by
  rw [lineStarts, offsetsAfterLineFeeds_append, Nat.zero_add, lineStarts, cons_append]

/-- Every line feed begins a line. -/
lemma length_lineStarts (t : Text) : t.lineStarts.length = t.count (.scalar '\n') + 1 := by
  have hlength : ∀ position, (offsetsAfterLineFeeds position t).length = t.count (.scalar '\n') := by
    induction t with
    | nil => exact fun _ => rfl
    | cons c rest ih =>
      intro position
      rw [offsetsAfterLineFeeds, count_cons]
      split_ifs <;> simp [ih]
  rw [lineStarts, length_cons, hlength]

/-- The last line begins as many characters before the end as it is long. -/
lemma getLast?_lineStarts (t : Text) :
    ∃ start, t.lineStarts.getLast? = some start ∧ start + t.lastLine.length = t.length := by
  induction t using List.reverseRecOn with
  | nil => exact ⟨0, rfl, rfl⟩
  | append_singleton u c ih =>
    obtain ⟨start, hlast, hlength⟩ := ih
    rw [lineStarts_append]
    by_cases hc : c = '\n'
    · exact ⟨u.length + 1, by simp [offsetsAfterLineFeeds, hc], by simp [lastLine, hc]⟩
    · refine ⟨start, by simpa [offsetsAfterLineFeeds, hc] using hlast, ?_⟩
      simp [lastLine, hc] at hlength ⊢
      omega

lemma filter_lineStarts (h : o ≤ t.length) :
    t.lineStarts.filter (fun (start : Nat) => (start : Int) ≤ o) = lineStarts (t.take o) := by
  have htake : (t.take o).length = o := length_take_of_le h
  have hbefore : ∀ start ∈ lineStarts (t.take o), start ≤ o := by
    intro start hstart
    rcases mem_cons.mp hstart with rfl | hstart
    · exact Nat.zero_le o
    · have := mem_offsetsAfterLineFeeds hstart
      omega
  have hbehind : ∀ start ∈ offsetsAfterLineFeeds (t.take o).length (t.drop o), ¬ start ≤ o := by
    intro start hstart
    have := mem_offsetsAfterLineFeeds hstart
    omega
  conv_lhs => rw [← take_append_drop o t, lineStarts_append, filter_append]
  rw [filter_eq_self.mpr (by simpa using hbefore), filter_eq_nil_iff.mpr (by simpa using hbehind),
    append_nil]

/-- **The position of an offset**: the line feeds before it are counted, and what stands behind the last of
them. -/
theorem position_eq (h : o ≤ t.length) :
    t.position o = ⟨(t.take o).count (.scalar '\n') + 1, (lastLine (t.take o)).length⟩ := by
  obtain ⟨start, hlast, hlength⟩ := getLast?_lineStarts (t.take o)
  rw [length_take_of_le h] at hlength
  simp only [position, filter_lineStarts h, hlast, length_lineStarts, Option.getD_some,
    Position.mk.injEq]
  omega

/-- A line table begins with the line starts. -/
lemma lineStarts_prefix_lineTable (t : Text) : t.lineStarts <+: t.lineTable := by
  simp only [lineTable]
  split_ifs
  · exact prefix_refl _
  · exact prefix_append _ _

/-- **The line table leads back** from the position of an offset. -/
theorem offsetOf?_position (h : o ≤ t.length) :
    offsetOf? t.lineTable (t.position o).line (t.position o).column = some (o : Int) := by
  obtain ⟨start, hlast, hlength⟩ := getLast?_lineStarts (t.take o)
  rw [length_take_of_le h] at hlength
  rw [position_eq h]
  have hcount := length_lineStarts (t.take o)
  generalize (t.take o).count (.scalar '\n') = n at hcount ⊢
  have hentry : t.lineTable[n]? = some start := by
    obtain ⟨r, htable⟩ := lineStarts_prefix_lineTable t
    rw [← htable, ← take_append_drop o t, lineStarts_append, append_assoc,
      getElem?_append_left (by omega), ← hlast, getLast?_eq_getElem?, hcount, Nat.add_sub_cancel]
  have hindex : min ((n : Int) + 1) t.lineTable.length - 1 = n := by
    have := (List.getElem?_eq_some_iff.mp hentry).1
    omega
  have hitem : itemAt? t.lineTable n = some start := by simp [itemAt?, hentry]
  simp only [offsetOf?]
  rw [hindex, hitem]
  have hsum : (start : Int) + (lastLine (t.take o)).length = o := by omega
  exact congrArg some hsum

/-! ## All three together -/

lemma length_encodePoint (c : CodePoint) : (encodePoint c).length = c.byteLength := by
  simp only [encodePoint, CodePoint.byteLength]
  split_ifs <;> rfl

/-- The number of bytes of a text. -/
lemma length_flatMap_encodePoint (t : Text) : (t.flatMap encodePoint).length = t.byteLength := by
  induction t with
  | nil => rfl
  | cons c rest ih => rw [flatMap_cons, length_append, length_encodePoint, ih, byteLength]

/-- **Offsets, bytes and positions name the same places.** An offset is turned into the number of bytes
before it, and back. Turning bytes into characters keeps the order, and leads from every byte of a
character to that character. The position of an offset counts the line feeds before it and the characters
behind the last of them, and leads back by the line table, which begins with the line starts. -/
theorem coordinates_agree (t : Text) :
    (∀ o ≤ t.length, t.byteOffset o = ((t.take o).flatMap encodePoint).length ∧
      t.charOfByte? (t.byteOffset o) = some (o : Int)) ∧
    (∀ b ≤ (t.flatMap encodePoint).length, t.charOfByte? b = some (t.charOffset b : Int) ∧
      ∀ a ≤ b, t.charOffset a ≤ t.charOffset b) ∧
    (∀ before c after, t = before ++ c :: after → ∀ k < (encodePoint c).length,
      t.charOffset ((before.flatMap encodePoint).length + k) = before.length) ∧
    (∀ o ≤ t.length,
      t.position o = ⟨(t.take o).count (.scalar '\n') + 1, (lastLine (t.take o)).length⟩ ∧
      offsetOf? t.lineTable (t.position o).line (t.position o).column = some (o : Int)) ∧
    t.lineStarts <+: t.lineTable := by
  simp only [length_flatMap_encodePoint, length_encodePoint]
  have hchar : ∀ {b : Nat}, b ≤ t.byteLength → t.charOfByte? b = some (t.charOffset b : Int) := by
    intro b hb
    rw [charOfByte?, if_pos (Int.natCast_nonneg b), Int.toNat_natCast, charOfByteFrom_eq_charOffset hb,
      charOffset]
    split_ifs <;> rfl
  have hbyte : ∀ {o : Nat}, o ≤ t.length → t.byteOffset o = byteLength (t.take o) := by
    intro o ho
    rw [byteOffset]
    split_ifs with hascii
    · rw [byteLength_take_of_isAscii hascii ho]
    · simp [fromEnd]
  refine ⟨fun o ho => ⟨hbyte ho, ?_⟩, fun b hb => ⟨hchar hb, fun a hab => charOffset_mono hab hb⟩, ?_,
    fun o ho => ⟨position_eq ho, offsetOf?_position ho⟩, lineStarts_prefix_lineTable t⟩
  · rw [hbyte ho, hchar (IsBoundary.le ⟨o, ho, rfl⟩), charOffset_byteLength_take t ho]
  · rintro before c after rfl k hk
    exact charOffset_inside before after c hk

/-- A letter of two bytes before a line feed: its second byte, and a place on the second line. -/
theorem coordinates_agree_accent :
    let t : Text := "é\nab"
    3 ≤ t.length ∧ 5 ≤ (t.flatMap encodePoint).length ∧ 1 < (encodePoint 'é').length ∧
      t.byteOffset (3 : Nat) = 4 ∧ t.charOfByte? (t.byteOffset (3 : Nat)) = some ((3 : Nat) : Int) ∧
      t.charOffset 4 ≤ t.charOffset 5 ∧ t.charOffset 1 = 0 ∧ t.position (3 : Nat) = ⟨2, 1⟩ ∧
      offsetOf? t.lineTable (t.position (3 : Nat)).line (t.position (3 : Nat)).column =
        some ((3 : Nat) : Int) := by
  intro t
  have hlength : 3 ≤ t.length := by decide
  have hbytes : 5 ≤ (t.flatMap encodePoint).length := by decide
  have hinside : 1 < (encodePoint 'é').length := by decide
  obtain ⟨hoffset, hbyte, hchar, hline, -⟩ := coordinates_agree t
  exact ⟨hlength, hbytes, hinside, (hoffset 3 hlength).1, (hoffset 3 hlength).2,
    (hbyte 5 hbytes).2 4 (by decide), hchar [] 'é' _ rfl 1 hinside, (hline 3 hlength).1, (hline 3 hlength).2⟩

end Phrasebook.Text
