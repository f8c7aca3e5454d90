import Phrasebook.Proofs.Assoc
import Phrasebook.Proofs.Component.Resplit

/-!
# Taking a file apart and putting it together

The splitter gives the blocks of a file, or it meets an opening tag that nothing closes. The blocks
stand one behind the other, each between an opening and a closing tag.

## Main results

* `Splits.tagged` — a file is its blocks with their tags, and the text between them.
* `splitBlocks_assembleBlocks` — a file with new contents has these in the places of the old ones, and is
  the same everywhere else.
-/

namespace Phrasebook

open List Option

variable {code t : Text} {offset : Nat}

/-! ## Taking apart -/

/-- An opening tag at an offset that does not close itself, and that nothing closes. -/
structure IsUnclosed (code : Text) (offset : Nat) (tag : OpeningTag) : Prop where
  reads : openingTagAt? (code.drop offset) = some tag
  opens : tag.closesItself = false
  unclosed : contentEnd? tag.name (code.drop (offset + tag.length)) = none

/-- **The splitter fails only at a block that is not closed.** -/
theorem unclosed_of_splitBlocksFrom {skip : Nat} {p : Problem}
    (ht : code.drop offset = t) (h : splitBlocksFrom offset skip t = .error p) :
    ∃ tag place, IsUnclosed code place tag ∧ p = { cause := .unclosedBlock tag.name place } := by
  induction t generalizing offset skip with
  | nil => cases h
  | cons c rest ih =>
    have hrest : code.drop (offset + 1) = rest := by
      rw [← drop_drop, ht, drop_one, tail_cons]
    cases skip with
    | succ skip => exact ih hrest h
    | zero =>
      rw [splitBlocksFrom] at h
      cases hread : openingTagAt? (c :: rest) with
      | none =>
        rw [hread] at h
        exact ih hrest h
      | some tag =>
        simp only [hread] at h
        split_ifs at h with hself
        · exact ih hrest h
        cases hend : contentEnd? tag.name ((c :: rest).drop tag.length) with
        | none =>
          simp only [hend] at h
          refine ⟨tag, offset, ⟨ht ▸ hread, by simpa using hself, ?_⟩, (Except.error.inj h).symm⟩
          rwa [← drop_drop, ht]
        | some found =>
          simp only [hend] at h
          cases hlater : splitBlocksFrom (offset + 1) (tag.length + found.1 + found.2 - 1) rest with
          | ok later => simp [hlater, Except.map] at h
          | error q =>
            rw [hlater] at h
            obtain rfl : q = p := Except.error.inj h
            exact ih hrest hlater

/-- **Blocks one behind the other from an offset on, each between its tags.** An opening tag ends where
the content of a block begins, the content is what the file has up to its closing tag, and the next block
is looked for behind that tag. -/
def Tagged (code : Text) : Nat → List Block → Prop
  | cursor, [] => cursor ≤ code.length
  | cursor, b :: rest =>
    ∃ (tag : OpeningTag) (closing : Nat),
      openingTagAt? (code.drop (b.start - tag.length)) = some tag ∧ tag.closesItself = false ∧
      tag.name = b.name ∧ tag.attributes = b.attributes ∧ cursor + tag.length ≤ b.start ∧
      b.start ≤ b.stop ∧ b.content = code.slice b.start b.stop ∧
      closerAt? b.name (code.drop b.stop) = some closing ∧ Tagged code (b.stop + closing) rest

lemma Tagged.of_le {cursor cursor' : Nat} (hle : cursor' ≤ cursor) :
    ∀ {blocks : List Block}, Tagged code cursor blocks → Tagged code cursor' blocks
  | [], h => le_trans hle h
  | _ :: _, ⟨tag, closing, hread, hself, hname, hattributes, hstart, hrest⟩ =>
    ⟨tag, closing, hread, hself, hname, hattributes, by omega, hrest⟩

/-- **The blocks of a file stand between their tags.** -/
theorem Splits.tagged {blocks : List Block} (h : Splits offset t blocks)
    (ht : code.drop offset = t) (hle : offset ≤ code.length) : Tagged code offset blocks := by
  have hlength : ∀ {u rest : Text} {offset : Nat}, code.drop offset = u ++ rest → offset ≤ code.length →
      offset + u.length ≤ code.length := by
    intro u rest offset hdrop hle
    have hlen := congrArg List.length hdrop
    rw [length_drop, length_append] at hlen
    omega
  induction h with
  | nil => exact hle
  | @pass offset c rest blocks _ _ ih =>
    have ht' : code.drop offset = [c] ++ rest := ht
    exact (ih (drop_passed ht') (hlength ht' hle)).of_le (Nat.le_succ offset)
  | tag _ _ _ _ ih => exact (ih (drop_passed ht) (hlength ht hle)).of_le (Nat.le_add_right _ _)
  | @block offset u content close rest tag blocks hread hlen hself hend _ ih =>
    have hcontent := drop_passed ht
    have hclose := drop_passed hcontent
    have hle₁ := hlength ht hle
    have hle₂ := hlength hcontent hle₁
    refine ⟨tag, close.length, ?_, hself, rfl, rfl, by simp [hlen], Nat.le_add_right _ _, ?_, ?_,
      ih (drop_passed hclose) (hlength hclose hle₂)⟩
    · simp only [hlen, Nat.add_sub_cancel, ht]
      exact hread
    · simp [Text.slice_eq_take_drop, hcontent]
    · have hcloser := contentEnd?_spec hend
      rw [drop_left] at hcloser
      simpa only [hclose] using hcloser

/-! ## Putting together -/

/-- The blocks that get a new content, by their index, in the order of the file. -/
def newContents (blocks : List Block) (contents : List (Int × Text)) : List (Block × Text) :=
  blocks.zipIdx.filterMap fun (b, i) => (contents.lookup (i : Int)).map fun content => (b, content)

section Assemble

variable {code : Text} {blocks : List Block} {contents : List (Int × Text)}

lemma mem_newContents {p : Block × Text} :
    p ∈ newContents blocks contents ↔
      ∃ i : Nat, blocks[i]? = some p.1 ∧ contents.lookup (i : Int) = some p.2 := by
  obtain ⟨b, content⟩ := p
  simp only [newContents, mem_filterMap, map_eq_some_iff, Prod.mk.injEq, Prod.exists,
    mem_zipIdx_iff_getElem?]
  constructor
  · rintro ⟨b, i, hb, content, hcontent, rfl, rfl⟩
    exact ⟨i, hb, hcontent⟩
  · rintro ⟨i, hb, hcontent⟩
    exact ⟨b, i, hb, content, hcontent, rfl, rfl⟩

/-- What holds of blocks in the order of the file holds of those with a new content. -/
lemma pairwise_newContents {R : Block → Block → Prop} (h : blocks.Pairwise R) :
    (newContents blocks contents).Pairwise fun a b => R a.1 b.1 := by
  have hzip : (blocks.zipIdx.map Prod.fst).Pairwise R := by simpa using h
  refine (pairwise_map.mp hzip).filterMap _ ?_
  intro a a' hR p hp p' hp'
  obtain ⟨_, -, rfl⟩ := map_eq_some_iff.mp hp
  obtain ⟨_, -, rfl⟩ := map_eq_some_iff.mp hp'
  exact hR

/-- The blocks that are named by indices, with their new contents. -/
def namedBlocks (blocks : List Block) (contents : List (Int × Text)) : List (Block × Text) :=
  contents.filterMap fun entry => (itemAt? blocks entry.1).map fun b => (b, entry.2)

lemma mapM_eq_ok {ε α β : Type} {f : α → Except ε β} {g : α → Option β} {l : List α}
    (h : ∀ a ∈ l, ∃ b, g a = some b ∧ f a = .ok b) : l.mapM f = .ok (l.filterMap g) := by
  induction l with
  | nil => rfl
  | cons a l ih =>
    obtain ⟨⟨b, hg, hf⟩, hl⟩ := forall_mem_cons.mp h
    rw [mapM_cons, hf, ih hl, filterMap_cons, hg]
    rfl

/-- If every index names a block, the contents of these blocks are replaced. -/
lemma assembleBlocks_of_named (hnamed : ∀ entry ∈ contents, ∃ b, itemAt? blocks entry.1 = some b) :
    assembleBlocks code blocks contents = .ok (replaceContents code (namedBlocks blocks contents)) := by
  rw [assembleBlocks, mapM_eq_ok (g := fun entry => (itemAt? blocks entry.1).map fun b => (b, entry.2))]
  · rfl
  · intro entry hentry
    obtain ⟨b, hb⟩ := hnamed entry hentry
    exact ⟨(b, entry.2), by simp [hb], by simp [hb]⟩

/-- The named blocks are those that get a new content, in another order. -/
lemma namedBlocks_perm (hblocks : blocks.Nodup) (hnodup : (contents.map Prod.fst).Nodup)
    (hnamed : ∀ entry ∈ contents, ∃ b, itemAt? blocks entry.1 = some b ∧
      blocks[entry.1.toNat]? = some b ∧ 0 ≤ entry.1) :
    (namedBlocks blocks contents).Perm (newContents blocks contents) := by
  have hitem : ∀ {entry b}, entry ∈ contents → itemAt? blocks entry.1 = some b →
      blocks[entry.1.toNat]? = some b := by
    intro entry b hentry hb
    obtain ⟨b', hb', hget, -⟩ := hnamed entry hentry
    rwa [← hb, hb']
  have hindex : ∀ {i j : Nat} {b : Block}, blocks[i]? = some b → blocks[j]? = some b → i = j :=
    fun hi hj => (getElem?_inj (List.getElem?_eq_some_iff.mp hi).1 hblocks).mp (hi.trans hj.symm)
  refine (perm_ext_iff_of_nodup ?_ ?_).mpr fun p => ?_
  · refine pairwise_filterMap.mpr ((pairwise_map.mp hnodup).imp_of_mem ?_)
    intro e e' he he' hne p hp p' hp' heq
    subst heq
    obtain ⟨b, hb, rfl⟩ := map_eq_some_iff.mp hp
    obtain ⟨b', hb', hpair⟩ := map_eq_some_iff.mp hp'
    obtain ⟨rfl, -⟩ := Prod.mk.inj hpair
    obtain ⟨_, -, -, hpos⟩ := hnamed e he
    obtain ⟨_, -, -, hpos'⟩ := hnamed e' he'
    have hsame := hindex (hitem he hb) (hitem he' hb')
    omega
  · exact (pairwise_newContents hblocks).imp fun hne heq => hne (by rw [heq])
  · rw [mem_newContents]
    simp only [namedBlocks, mem_filterMap, map_eq_some_iff]
    constructor
    · rintro ⟨⟨i, content⟩, hentry, b, hb, rfl⟩
      obtain ⟨_, -, -, hpos⟩ := hnamed _ hentry
      refine ⟨i.toNat, hitem hentry hb, ?_⟩
      rw [Int.toNat_of_nonneg hpos]
      exact lookup_of_mem hnodup hentry
    · rintro ⟨i, hb, hlookup⟩
      refine ⟨(i, p.2), mem_of_lookup hlookup, p.1, ?_, rfl⟩
      rw [itemAt?, if_pos (Int.natCast_nonneg i), Int.toNat_natCast, hb]

/-- **A file with some contents replaced.** The indices are those of blocks, and none is given twice.

**Proof sketch.** The given contents are those of `newContents` in another order. They are put into the
file from the last to the first, so that each place is still where it was. -/
theorem assembleBlocks_eq_ok (hsplit : splitBlocks code = .ok blocks) (hnodup : (contents.map Prod.fst).Nodup)
    (hindex : ∀ entry ∈ contents, 0 ≤ entry.1 ∧ entry.1 < blocks.length) :
    assembleBlocks code blocks contents =
      .ok (spliceFrom code 0 ((newContents blocks contents).map Block.fill)) := by
  obtain ⟨hmem, hpair⟩ := splitBlocks_spec hsplit
  have hstrict := pairwise_start_lt hsplit
  have hblocks : blocks.Nodup := hstrict.imp fun hlt heq => absurd hlt (by simp [heq])
  have hnamed : ∀ entry ∈ contents, ∃ b, itemAt? blocks entry.1 = some b ∧
      blocks[entry.1.toNat]? = some b ∧ 0 ≤ entry.1 := by
    intro entry hentry
    obtain ⟨hpos, hlt⟩ := hindex entry hentry
    have hget := getElem?_eq_getElem (l := blocks) (i := entry.1.toNat) (by omega)
    exact ⟨_, by rw [itemAt?, if_pos hpos, hget], hget, hpos⟩
  rw [assembleBlocks_of_named fun entry hentry => (hnamed entry hentry).imp fun _ h => h.1]
  refine congrArg Except.ok (replaceContents_of_perm (namedBlocks_perm hblocks hnodup hnamed) ?_
    (pairwise_newContents hpair) (pairwise_newContents hstrict))
  intro p hp
  obtain ⟨i, hb, -⟩ := mem_newContents.mp hp
  exact hmem _ (mem_of_getElem? hb)

/-- Blocks that keep their content may as well be left alone. -/
lemma spliceFrom_own (hsplit : splitBlocks code = .ok blocks)
    (hown : ∀ p ∈ newContents blocks contents, p.2 = p.1.content) :
    spliceFrom code 0 ((newContents blocks contents).map Block.fill) = code := by
  obtain ⟨hmem, hpair⟩ := splitBlocks_spec hsplit
  rw [← spliceFrom_filter (f := fun _ => false) ?_ (pairwise_newContents hpair) fun p hp _ => hown p hp]
  · simp [spliceFrom]
  · intro p hp
    obtain ⟨i, hb, -⟩ := mem_newContents.mp hp
    exact hmem _ (mem_of_getElem? hb)

end Assemble

/-- **Every text can be taken apart and put together**, or it has a block that is not closed.

* The blocks stand in the order of the text, each between an opening tag and a closing tag of its own;
  between the contents of two of them there is at least a bracket.
* A block lies in the text, and its content is what the text has between its offsets.
* For contents that are given to any of the blocks by their indices, the text that is put together has
  them in the places of the old contents, and is the same everywhere else. It is the text itself if no
  content is given, or only those that the blocks have anyway. -/
theorem splitBlocks_assembleBlocks (code : Text) :
    (∃ tag offset, IsUnclosed code offset tag ∧
      splitBlocks code = .error { cause := .unclosedBlock tag.name offset }) ∨
    ∃ blocks, splitBlocks code = .ok blocks ∧ Tagged code 0 blocks ∧
      (blocks.Pairwise fun a b => a.stop < b.start) ∧
      (∀ b ∈ blocks, b.start ≤ b.stop ∧ b.stop ≤ code.length ∧
        b.content = code.slice b.start b.stop) ∧
      ∀ contents : List (Int × Text), (contents.map Prod.fst).Nodup →
        (∀ entry ∈ contents, 0 ≤ entry.1 ∧ entry.1 < blocks.length) →
        assembleBlocks code blocks contents =
          .ok (spliceFrom code 0 ((newContents blocks contents).map Block.fill)) ∧
        ((∀ entry ∈ contents, ∀ b, blocks[entry.1.toNat]? = some b → entry.2 = b.content) →
          assembleBlocks code blocks contents = .ok code) := by
  cases hsplit : splitBlocks code with
  | error p =>
    obtain ⟨tag, offset, hunclosed, rfl⟩ := unclosed_of_splitBlocksFrom rfl hsplit
    exact .inl ⟨tag, offset, hunclosed, rfl⟩
  | ok blocks =>
    have hsplits := splits_of_splitBlocksFrom hsplit
    refine .inr ⟨blocks, rfl, hsplits.tagged rfl (Nat.zero_le _), hsplits.spec.2, fun b hb => ?_, ?_⟩
    · have hblock := (splitBlocks_spec hsplit).1 b hb
      exact ⟨hblock.start_le, hblock.stop_le, hblock.content_eq⟩
    · intro contents hnodup hindex
      have hassemble := assembleBlocks_eq_ok hsplit hnodup hindex
      refine ⟨hassemble, fun hown => ?_⟩
      rw [hassemble, spliceFrom_own hsplit]
      intro p hp
      obtain ⟨i, hb, hcontent⟩ := mem_newContents.mp hp
      exact hown (i, p.2) (mem_of_lookup hcontent) p.1 (by simpa using hb)

/-- A tag that closes itself, and a template in a template, whose content is replaced. -/
theorem splitBlocks_assembleBlocks_nested :
    let code : Text := "<style /><template><template></template></template>"
    let blocks : List Block := [⟨"template", [], 19, 40, "<template></template>"⟩]
    splitBlocks code = .ok blocks ∧
      assembleBlocks code blocks [(0, "a")] = .ok "<style /><template>a</template>" ∧
      assembleBlocks code blocks [] = .ok code := by
  intro code blocks
  have hfound : (splitBlocks code).toOption.any (fun found => found == blocks) = true := by
    decide +kernel
  obtain ⟨found, hsplit, hsame⟩ := exists_ok_of_any hfound
  rw [show found = blocks by simpa using hsame] at hsplit
  refine ⟨hsplit, ?_⟩
  rcases splitBlocks_assembleBlocks code with ⟨tag, offset, -, herror⟩ | ⟨split, hsplit', -, -, -, hassemble⟩
  · rw [hsplit] at herror
    cases herror
  · obtain rfl : blocks = split := Except.ok.inj (hsplit.symm.trans hsplit')
    refine ⟨?_, (hassemble [] nodup_nil (by simp)).2 (by simp)⟩
    rw [(hassemble _ (by decide) (by simp [blocks])).1]
    exact congrArg Except.ok (by decide +kernel)

end Phrasebook
