import Mathlib.Data.List.Pairwise
import Phrasebook.Component.Block
import Phrasebook.Proofs.Text.Slice

/-!
# Where the blocks of a component stand

The splitter finds an opening tag, looks for what closes the block, and goes on behind that.

## Main results

* `splitBlocks_spec` — blocks follow each other, and each content is the text between its tags.
* `apart_of_ne` — different blocks do not overlap.
-/

namespace Phrasebook

open List

variable {b : Block} {blocks : List Block} {length offset place skip : Nat} {code name t : Text}

/-! ## The end of a block -/

lemma findClosingTag?_lt (h : findClosingTag? name offset t = some (place, length)) :
    place < offset + t.length := by
  induction t generalizing offset with
  | nil => simp [findClosingTag?] at h
  | cons c rest ih =>
    rw [findClosingTag?] at h
    rw [length_cons]
    split at h
    · obtain ⟨rfl, -⟩ := Prod.mk.inj (Option.some.inj h)
      omega
    · have hlt := ih h
      omega

lemma findTemplateEnd?_lt {depth : Nat}
    (h : findTemplateEnd? offset skip depth t = some (place, length)) : place < offset + t.length := by
  induction t generalizing offset skip depth with
  | nil => simp [findTemplateEnd?] at h
  | cons c rest ih =>
    have hnext : ∀ {skip depth}, findTemplateEnd? (offset + 1) skip depth rest = some (place, length) →
        place < offset + (c :: rest).length := by
      intro skip depth hrest
      have hlt := ih hrest
      rw [length_cons]
      omega
    cases skip with
    | succ skip => exact hnext h
    | zero =>
      simp only [findTemplateEnd?] at h
      split at h
      · exact hnext h
      · split_ifs at h
        · cases depth with
          | zero =>
            obtain ⟨rfl, -⟩ := Prod.mk.inj (Option.some.inj h)
            simp
          | succ depth => exact hnext h
        · exact hnext h
        · exact hnext h

/-- **The content of a block ends in the text** behind its opening tag. -/
theorem contentEnd?_lt {closing : Nat} (h : contentEnd? name t = some (length, closing)) :
    length < t.length := by
  rw [contentEnd?] at h
  split_ifs at h
  · simpa using findTemplateEnd?_lt h
  · simpa using findClosingTag?_lt h

/-! ## The blocks -/

/-- A block of a file, from an offset on: its content is what the file has between its offsets. -/
structure Block.IsBlockOf (code : Text) (offset : Nat) (b : Block) : Prop where
  le_start : offset ≤ b.start
  start_le : b.start ≤ b.stop
  stop_le : b.stop ≤ code.length
  content_eq : b.content = code.slice b.start b.stop

lemma Block.IsBlockOf.of_le {offset' : Nat} (h : b.IsBlockOf code offset) (hle : offset' ≤ offset) :
    b.IsBlockOf code offset' :=
  ⟨le_trans hle h.le_start, h.start_le, h.stop_le, h.content_eq⟩

lemma Block.IsBlockOf.length_content (h : b.IsBlockOf code offset) : b.content.length = b.stop - b.start := by
  rw [h.content_eq, Text.length_slice, min_eq_left h.stop_le]

lemma Block.isBlockOf_take {attributes : Text} {start : Nat} (h : length < (code.drop start).length) :
    Block.IsBlockOf code start
      ⟨name, attributes, start, start + length, (code.drop start).take length⟩ where
  le_start := Nat.le_refl start
  start_le := Nat.le_add_right start length
  stop_le := by
    rw [length_drop] at h
    simp only
    omega
  content_eq := by simp [Text.slice, drop_take]

/-- One step of the splitter: it goes on without a block, or it takes one and goes on behind its
closing tag. -/
lemma splitBlocksFrom_cons {c : CodePoint} {rest : Text}
    (h : splitBlocksFrom offset 0 (c :: rest) = .ok blocks) :
    (∃ skip, splitBlocksFrom (offset + 1) skip rest = .ok blocks) ∨
      ∃ tag length closing later,
        contentEnd? (OpeningTag.name tag) ((c :: rest).drop tag.length) = some (length, closing) ∧
        splitBlocksFrom (offset + 1) (tag.length + length + closing - 1) rest = .ok later ∧
        blocks = ⟨tag.name, tag.attributes, offset + tag.length, offset + tag.length + length,
          ((c :: rest).drop tag.length).take length⟩ :: later := by
  rw [splitBlocksFrom] at h
  cases htag : openingTagAt? (c :: rest) with
  | none =>
    rw [htag] at h
    exact .inl ⟨0, h⟩
  | some tag =>
    simp only [htag] at h
    split_ifs at h with hself
    · exact .inl ⟨_, h⟩
    cases hend : contentEnd? tag.name ((c :: rest).drop tag.length) with
    | none => simp [hend] at h
    | some found =>
      simp only [hend] at h
      cases hlater : splitBlocksFrom (offset + 1) (tag.length + found.1 + found.2 - 1) rest with
      | error p => simp [hlater, Except.map] at h
      | ok later =>
        rw [hlater] at h
        exact .inr ⟨tag, found.1, found.2, later, hend, hlater, (Except.ok.inj h).symm⟩

/-- The blocks from an offset on follow each other.

**Proof sketch.** Induction on the text. Behind a block the splitter skips as many characters as its
tags and its content have, so what it finds later begins behind the block. -/
lemma splitBlocksFrom_spec (ht : code.drop offset = t) (h : splitBlocksFrom offset skip t = .ok blocks) :
    (∀ b ∈ blocks, b.IsBlockOf code (offset + skip)) ∧
      blocks.Pairwise fun a b => a.stop ≤ b.start := by
  induction t generalizing offset skip blocks with
  | nil =>
    obtain rfl : [] = blocks := Except.ok.inj h
    simp
  | cons c rest ih =>
    have hrest : code.drop (offset + 1) = rest := by
      rw [← drop_drop, ht, drop_one, tail_cons]
    cases skip with
    | succ skip =>
      obtain ⟨hmem, hpair⟩ := ih hrest h
      exact ⟨fun b hb => (hmem b hb).of_le (by omega), hpair⟩
    | zero =>
      obtain ⟨skip, hskip⟩ | ⟨tag, length, closing, later, hend, hlater, rfl⟩ :=
        splitBlocksFrom_cons h
      · obtain ⟨hmem, hpair⟩ := ih hrest hskip
        exact ⟨fun b hb => (hmem b hb).of_le (by omega), hpair⟩
      · obtain ⟨hmem, hpair⟩ := ih hrest hlater
        have hlt := contentEnd?_lt hend
        rw [← ht, drop_drop] at hlt ⊢
        refine ⟨forall_mem_cons.mpr ⟨?_, fun b hb => ?_⟩, pairwise_cons.mpr ⟨?_, hpair⟩⟩
        · exact (Block.isBlockOf_take hlt).of_le (by omega)
        · exact (hmem b hb).of_le (by omega)
        · intro b hb
          have hle := (hmem b hb).le_start
          simp only
          omega

/-- **The blocks of a file** follow each other, and each holds what stands between its tags. -/
theorem splitBlocks_spec (h : splitBlocks code = .ok blocks) :
    (∀ b ∈ blocks, b.IsBlockOf code 0) ∧ blocks.Pairwise fun a b => a.stop ≤ b.start :=
  splitBlocksFrom_spec rfl h

/-- Of two blocks that follow each other, one ends before the other begins. -/
theorem apart_of_ne (hpair : blocks.Pairwise fun a b => a.stop ≤ b.start) {a : Block} (ha : a ∈ blocks)
    (hb : b ∈ blocks) (hne : a ≠ b) : a.stop ≤ b.start ∨ b.stop ≤ a.start := by
  have hsymm : Std.Symm fun a b : Block => a.stop ≤ b.start ∨ b.stop ≤ a.start :=
    ⟨fun _ _ => Or.symm⟩
  have hapart : blocks.Pairwise fun a b => a.stop ≤ b.start ∨ b.stop ≤ a.start :=
    hpair.imp Or.inl
  exact hapart.forall ha hb hne

end Phrasebook
