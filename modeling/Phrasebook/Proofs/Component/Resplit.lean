import Phrasebook.Proofs.Component.Blocks
import Phrasebook.Proofs.Component.ContentEnd
import Phrasebook.Proofs.Edit.Weave
import Phrasebook.Proofs.Message.Bookkeeping

/-!
# Splitting a file again

If the contents of the blocks of a file are replaced, the splitter still finds every opening tag, since
it reads none of them past the closing bracket.

## Main results

* `Splits.resplit_iff` — it finds the same blocks with the new contents just if each content ends where
  the closing tag of its block begins.
* `replaceContents_eq` — what putting in the contents gives.
-/

namespace Phrasebook

open List

variable {blocks : List Block} {rest t u : Text} {contents : List (Block × Text)}
  {cursor offset : Nat} {tag : OpeningTag}

/-! ## How the splitter passes over a text -/

/-- What belongs to the last tag or block is passed over. -/
lemma splitBlocksFrom_skip (offset skip : Nat) (t : Text) :
    splitBlocksFrom offset skip t = splitBlocksFrom (offset + skip) 0 (t.drop skip) := by
  induction t generalizing offset skip with
  | nil => simp [splitBlocksFrom]
  | cons c rest ih =>
    cases skip with
    | zero => rfl
    | succ skip =>
      rw [splitBlocksFrom, ih, drop_succ_cons]
      congr 1
      omega

/-- A character that begins no tag is passed. -/
lemma splitBlocksFrom_pass {c : CodePoint} (h : openingTagAt? (c :: rest) = none) (offset : Nat) :
    splitBlocksFrom offset 0 (c :: rest) = splitBlocksFrom (offset + 1) 0 rest := by
  rw [splitBlocksFrom, h]

/-- What an opening tag leads to. -/
lemma splitBlocksFrom_tag (h : openingTagAt? (u ++ rest) = some tag)
    (hlength : tag.length = u.length) (offset : Nat) :
    splitBlocksFrom offset 0 (u ++ rest) =
      if tag.closesItself then splitBlocksFrom (offset + u.length) 0 rest
      else
        match contentEnd? tag.name rest with
        | none => .error { cause := .unclosedBlock tag.name offset }
        | some (length, closing) =>
          (splitBlocksFrom (offset + u.length + length + closing) 0
            (rest.drop (length + closing))).map
              (⟨tag.name, tag.attributes, offset + u.length, offset + u.length + length,
                rest.take length⟩ :: ·) := by
  cases u with
  | nil =>
    obtain ⟨⟨v, r, -, hv⟩, -⟩ := openingTagAt?_spec h
    simp [hlength] at hv
  | cons c u =>
    rw [cons_append] at h
    rw [cons_append, splitBlocksFrom, h]
    have hdrop : (c :: (u ++ rest)).drop tag.length = rest := by
      rw [hlength, ← cons_append, drop_left]
    simp only [hdrop]
    split_ifs
    · rw [splitBlocksFrom_skip, hlength, length_cons, Nat.add_sub_cancel, drop_left]
      congr 1
      omega
    · cases contentEnd? tag.name rest with
      | none => rfl
      | some found =>
        obtain ⟨length, closing⟩ := found
        have hskip : tag.length + length + closing - 1 = u.length + (length + closing) := by
          rw [hlength, length_cons]
          omega
        simp only [hskip]
        rw [splitBlocksFrom_skip, ← drop_drop, drop_left, hlength, length_cons]
        congr 2
        omega

/-- **How the splitter passes over a text** that begins at an offset: it passes characters and tags
that close themselves, and takes what stands between the tags of a block. -/
inductive Splits : Nat → Text → List Block → Prop
  | nil (offset : Nat) : Splits offset [] []
  | pass {offset : Nat} {c : CodePoint} {rest : Text} {blocks : List Block}
      (hread : openingTagAt? (c :: rest) = none) (hrest : Splits (offset + 1) rest blocks) :
      Splits offset (c :: rest) blocks
  | tag {offset : Nat} {u rest : Text} {tag : OpeningTag} {blocks : List Block}
      (hread : openingTagAt? (u ++ rest) = some tag) (hlength : tag.length = u.length)
      (hself : tag.closesItself = true) (hrest : Splits (offset + u.length) rest blocks) :
      Splits offset (u ++ rest) blocks
  | block {offset : Nat} {u content close rest : Text} {tag : OpeningTag} {blocks : List Block}
      (hread : openingTagAt? (u ++ (content ++ (close ++ rest))) = some tag)
      (hlength : tag.length = u.length) (hself : tag.closesItself = false)
      (hend : contentEnd? tag.name (content ++ (close ++ rest)) = some (content.length, close.length))
      (hrest : Splits (offset + u.length + content.length + close.length) rest blocks) :
      Splits offset (u ++ (content ++ (close ++ rest)))
        (⟨tag.name, tag.attributes, offset + u.length, offset + u.length + content.length, content⟩ ::
          blocks)

/-- A content and its closing tag are parts of the text. -/
lemma contentEnd?_parts {name : Text} {length closing : Nat} (h : contentEnd? name t = some (length, closing)) :
    ∃ content close rest, t = content ++ (close ++ rest) ∧ length = content.length ∧
      closing = close.length := by
  have hlt := contentEnd?_lt h
  obtain ⟨u, r, hr, hclosing⟩ := closerAt?_spec (contentEnd?_spec h)
  refine ⟨t.take length, .scalar '<' :: (u ++ [.scalar '>']), r, ?_, ?_, ?_⟩
  · have hclose : .scalar '<' :: (u ++ [.scalar '>']) ++ r = t.drop length := by simp [hr]
    rw [hclose, take_append_drop]
  · rw [length_take_of_le hlt.le]
  · simp [hclosing]

/-- **The splitter passes over a text in this way**, if it does not fail. -/
theorem splits_of_splitBlocksFrom (h : splitBlocksFrom offset 0 t = .ok blocks) :
    Splits offset t blocks := by
  induction hn : t.length using Nat.strong_induction_on generalizing t offset blocks with
  | _ n ih =>
    subst hn
    cases t with
    | nil =>
      obtain rfl : [] = blocks := Except.ok.inj h
      exact .nil offset
    | cons c rest =>
      cases hread : openingTagAt? (c :: rest) with
      | none =>
        rw [splitBlocksFrom_pass hread] at h
        exact .pass hread (ih rest.length (by simp) h rfl)
      | some tag =>
        obtain ⟨⟨u, r, ht, hlength⟩, -⟩ := openingTagAt?_spec hread
        have hu : tag.length = (u ++ [CodePoint.scalar '>']).length := by simp [hlength]
        have ht' : c :: rest = (u ++ [.scalar '>']) ++ r := by simp [ht]
        rw [ht'] at hread h ⊢
        rw [splitBlocksFrom_tag hread hu] at h
        split_ifs at h with hself
        · exact .tag hread hu hself (ih r.length (by simp [ht]; omega) h rfl)
        · cases hend : contentEnd? tag.name r with
          | none => simp [hend] at h
          | some found =>
            obtain ⟨length, closing⟩ := found
            obtain ⟨content, close, rest, rfl, rfl, rfl⟩ := contentEnd?_parts hend
            simp only [hend, take_left, ← drop_drop, drop_left] at h
            obtain ⟨later, hlater, rfl⟩ := exists_ok_of_map h
            exact .block hread hu (by simpa using hself) hend
              (ih rest.length (by simp [ht]; omega) hlater rfl)

/-- The blocks of a text follow each other, with closing tags between them. -/
lemma Splits.spec (h : Splits offset t blocks) :
    (∀ b ∈ blocks, offset ≤ b.start ∧ b.start ≤ b.stop) ∧
      blocks.Pairwise fun a b => a.stop < b.start := by
  induction h with
  | nil => simp
  | pass _ _ ih | tag _ _ _ _ ih => exact ⟨fun b hb => ⟨by have := (ih.1 b hb).1; omega, (ih.1 b hb).2⟩, ih.2⟩
  | block _ _ _ hend _ ih =>
    have hcloser := contentEnd?_spec hend
    rw [drop_left] at hcloser
    obtain ⟨v, r, -, hclose⟩ := closerAt?_spec hcloser
    refine ⟨forall_mem_cons.mpr ⟨⟨by simp, by simp⟩, fun b hb => ?_⟩,
      pairwise_cons.mpr ⟨fun b hb => ?_, ih.2⟩⟩
    · have hb' := ih.1 b hb
      omega
    · have hb' := ih.1 b hb
      simp only
      omega

/-- Of two blocks of a file, the later one begins later. -/
lemma pairwise_start_lt {code : Text} (h : splitBlocks code = .ok blocks) :
    blocks.Pairwise fun a b => a.start < b.start := by
  obtain ⟨hle, hpair⟩ := (splits_of_splitBlocksFrom h).spec
  exact hpair.imp_of_mem fun ha _ hlt => lt_of_le_of_lt (hle _ ha).2 hlt

/-! ## Other contents -/

/-- Texts that are the same up to a closing bracket, or altogether. -/
def SameToBracket (t t' : Text) : Prop :=
  t = t' ∨ ∃ v w w', t = v ++ .scalar '>' :: w ∧ t' = v ++ .scalar '>' :: w'

namespace SameToBracket

variable {t t' : Text}

lemma append (u : Text) (h : SameToBracket t t') : SameToBracket (u ++ t) (u ++ t') := by
  obtain rfl | ⟨v, w, w', rfl, rfl⟩ := h
  · exact .inl rfl
  · exact .inr ⟨u ++ v, w, w', by simp, by simp⟩

/-- Texts that are the same up to a bracket begin with the same tag. -/
lemma openingTagAt? (h : SameToBracket t t') : openingTagAt? t = openingTagAt? t' := by
  obtain rfl | ⟨v, w, w', rfl, rfl⟩ := h
  · rfl
  · rw [openingTagAt?_bracket v w, openingTagAt?_bracket v w']

/-- What follows an opening tag does not matter. -/
lemma of_tag {r r' : Text} (h : Phrasebook.openingTagAt? (u ++ r) = some tag)
    (hlength : tag.length = u.length) : SameToBracket (u ++ r) (u ++ r') := by
  obtain ⟨⟨v, w, ht, hv⟩, -⟩ := openingTagAt?_spec h
  have hlen : u.length = (v ++ [CodePoint.scalar '>']).length := by simp [← hlength, hv]
  have ht' : u ++ r = (v ++ [.scalar '>']) ++ w := by simp [ht]
  obtain ⟨rfl, -⟩ := append_inj ht' hlen
  exact .inr ⟨v, r, r', by simp, by simp⟩

end SameToBracket

namespace Block

/-- What makes a block, wherever it stands: its name, its attributes and its content. -/
def parts (b : Block) : Text × Text × Text := (b.name, b.attributes, b.content)

/-- A new content for a block, as a replacement in the file. -/
def fill (p : Block × Text) : Splice := ⟨p.1.start, p.1.stop, p.2⟩

/-- What makes a block with a new content. -/
def newParts (p : Block × Text) : Text × Text × Text := (p.1.name, p.1.attributes, p.2)

end Block

section Refill

variable {code t : Text} {offset : Nat} {blocks : List Block} {filled : List (Block × Text)}

/-- Later blocks begin later. -/
lemma Splits.le_start_fill (h : Splits offset t blocks) (hfilled : filled.map Prod.fst = blocks) :
    ∀ s ∈ filled.map Block.fill, offset ≤ s.start := by
  intro s hs
  obtain ⟨p, hp, rfl⟩ := mem_map.mp hs
  exact (h.spec.1 p.1 (hfilled ▸ mem_map_of_mem hp)).1

/-- What a text begins with is kept if it is passed over. -/
lemma spliceFrom_passed {splices : List Splice} (ht : code.drop offset = u ++ rest)
    (hstart : ∀ s ∈ splices, offset + u.length ≤ s.start) :
    spliceFrom code offset splices = u ++ spliceFrom code (offset + u.length) splices := by
  rw [spliceFrom_advance code (Nat.le_add_right offset u.length) hstart, Text.slice_eq_take_drop, ht,
    Nat.add_sub_cancel_left, take_left]

lemma drop_passed (ht : code.drop offset = u ++ rest) : code.drop (offset + u.length) = rest := by
  rw [← drop_drop, ht, drop_left]

/-- One block with another content: both its tags are kept. -/
lemma spliceFrom_block {content close : Text} {later : List Splice}
    (ht : code.drop offset = u ++ (content ++ (close ++ rest)))
    (hlater : ∀ s ∈ later, offset + u.length + content.length + close.length ≤ s.start) (c : Text) :
    spliceFrom code offset (⟨offset + u.length, offset + u.length + content.length, c⟩ :: later) =
      u ++ (c ++ (close ++ spliceFrom code (offset + u.length + content.length + close.length) later)) := by
  have hclose : code.drop (offset + u.length + content.length) = close ++ rest :=
    drop_passed (drop_passed ht)
  rw [spliceFrom, Text.slice_eq_take_drop, ht, Nat.add_sub_cancel_left, take_left,
    spliceFrom_passed hclose hlater, append_assoc]

/-- Other contents do not matter for reading what stands before the first block. -/
lemma Splits.sameToBracket (h : Splits offset t blocks) (ht : code.drop offset = t)
    (hfilled : filled.map Prod.fst = blocks) :
    SameToBracket t (spliceFrom code offset (filled.map Block.fill)) := by
  induction h generalizing filled with
  | nil =>
    obtain rfl := map_eq_nil_iff.mp hfilled
    exact .inl ht.symm
  | @pass _ c rest _ _ hrest ih =>
    have ht' : code.drop _ = [c] ++ rest := ht
    rw [spliceFrom_passed ht' (hrest.le_start_fill hfilled)]
    exact (ih (drop_passed ht') hfilled).append [c]
  | tag hread _ _ hrest ih =>
    rw [spliceFrom_passed ht (hrest.le_start_fill hfilled)]
    exact (ih (drop_passed ht) hfilled).append _
  | block hread hlength _ _ hrest ih =>
    obtain ⟨⟨b, c⟩, later, rfl, rfl, hlater⟩ := map_eq_cons_iff.mp hfilled
    rw [map_cons, Block.fill, spliceFrom_block ht (hrest.le_start_fill hlater)]
    exact .of_tag hread hlength

/-- **A file with other contents is split into the same blocks** just if every content stays inside of
its block.

**Proof sketch.** Induction along the splitter's way over the file. Up to the next opening tag it reads
the same as before, since no tag is read past its closing bracket. In a block, the closing tag is still
there, and the content reaches up to it just if it stays inside; then the splitter goes on behind the
closing tag, and otherwise the content that it takes is not the one that was put there. -/
theorem Splits.resplit_iff (h : Splits offset t blocks) (ht : code.drop offset = t)
    (hfilled : filled.map Prod.fst = blocks) (offset' : Nat) :
    (∃ found, splitBlocksFrom offset' 0 (spliceFrom code offset (filled.map Block.fill)) = .ok found ∧
      found.map Block.parts = filled.map Block.newParts) ↔
        ∀ p ∈ filled, StaysInside p.1.name p.2 := by
  induction h generalizing filled offset' with
  | nil =>
    obtain rfl := map_eq_nil_iff.mp hfilled
    have hempty : spliceFrom code _ ([] : List Splice) = [] := ht
    simp [hempty, splitBlocksFrom]
  | @pass _ c rest _ hread hrest ih =>
    have ht' : code.drop _ = [c] ++ rest := ht
    have hsame := (hrest.sameToBracket (drop_passed ht') hfilled).append [c]
    rw [spliceFrom_passed ht' (hrest.le_start_fill hfilled), singleton_append,
      splitBlocksFrom_pass (hsame.openingTagAt? ▸ hread)]
    exact ih (drop_passed ht') hfilled (offset' + 1)
  | @tag _ u rest tag _ hread hlength hself hrest ih =>
    have hsame := (hrest.sameToBracket (drop_passed ht) hfilled).append u
    rw [spliceFrom_passed ht (hrest.le_start_fill hfilled),
      splitBlocksFrom_tag (hsame.openingTagAt? ▸ hread) hlength, if_pos hself]
    exact ih (drop_passed ht) hfilled _
  | @block _ u content close rest tag _ hread hlength hself hend hrest ih =>
    obtain ⟨⟨b, c⟩, later, rfl, rfl, hlater⟩ := map_eq_cons_iff.mp hfilled
    have hname := (openingTagAt?_spec hread).2
    have hrest' := ih (drop_passed (drop_passed (drop_passed ht))) hlater
    rw [map_cons, Block.fill, spliceFrom_block ht (hrest.le_start_fill hlater)]
    generalize spliceFrom code _ (later.map Block.fill) = rest' at hrest'
    -- The closing tag of the block is read as before.
    have hcloser : closerAt? tag.name (close ++ rest') = some close.length := by
      have hbefore := contentEnd?_spec hend
      rw [drop_left] at hbefore
      exact closerAt?_append (hname _ (.inr rfl)) hbefore rest'
    have hinside := staysInside_iff (hname _ (.inl rfl)) hcloser c
    rw [splitBlocksFrom_tag ((SameToBracket.of_tag hread hlength).openingTagAt? ▸ hread) hlength,
      if_neg (by simp [hself]), forall_mem_cons, map_cons]
    constructor
    · rintro ⟨found, hfound, hparts⟩
      cases hend' : contentEnd? tag.name (c ++ (close ++ rest')) with
      | none => simp [hend'] at hfound
      | some place =>
        obtain ⟨length, closing⟩ := place
        rw [hend'] at hfound
        obtain ⟨others, hothers, rfl⟩ := exists_ok_of_map hfound
        obtain ⟨hfirst, hothers'⟩ := List.cons.inj hparts
        have htake : (c ++ (close ++ rest')).take length = c := congrArg (fun p => p.2.2) hfirst
        obtain rfl : c.length = length := by
          rw [← congrArg List.length htake, length_take_of_le (contentEnd?_lt hend').le]
        have hclosing := contentEnd?_spec hend'
        rw [drop_left, hcloser] at hclosing
        obtain rfl := Option.some.inj hclosing
        rw [← drop_drop, drop_left, drop_left] at hothers
        exact ⟨hinside.mpr hend', (hrest' _).mp ⟨others, hothers, hothers'⟩⟩
    · rintro ⟨hc, hall⟩
      obtain ⟨others, hothers, hparts⟩ :=
        (hrest' (offset' + u.length + c.length + close.length)).mpr hall
      rw [hinside.mp hc]
      simp only [← drop_drop, drop_left, take_left, hothers]
      exact ⟨_, rfl, by rw [map_cons, hparts]; rfl⟩

end Refill

/-! ## Replacing contents -/

section Replace

variable {code : Text} {filled : List (Block × Text)}

/-- New contents of blocks that follow each other are replacements that do. -/
lemma follow_fill (hle : cursor ≤ code.length) (hblocks : ∀ p ∈ filled, p.1.IsBlockOf code cursor)
    (hpair : filled.Pairwise fun a b => a.1.stop ≤ b.1.start) :
    Follow Splice.span code.length cursor (filled.map Block.fill) := by
  induction filled generalizing cursor with
  | nil => exact hle
  | cons p rest ih =>
    have hp := hblocks p mem_cons_self
    obtain ⟨hnext, hpair⟩ := pairwise_cons.mp hpair
    exact ⟨hp.le_start, hp.start_le, ih hp.stop_le (fun q hq =>
      { hblocks q (mem_cons_of_mem p hq) with le_start := hnext q hq }) hpair⟩

/-- Blocks that keep their content may as well be left out. -/
lemma spliceFrom_filter (hblocks : ∀ p ∈ filled, p.1.IsBlockOf code cursor)
    (hpair : filled.Pairwise fun a b => a.1.stop ≤ b.1.start) {f : Block × Text → Bool}
    (hkept : ∀ p ∈ filled, f p = false → p.2 = p.1.content) :
    spliceFrom code cursor ((filled.filter f).map Block.fill) =
      spliceFrom code cursor (filled.map Block.fill) := by
  induction filled generalizing cursor with
  | nil => rfl
  | cons p rest ih =>
    have hp := hblocks p mem_cons_self
    obtain ⟨hnext, hpair⟩ := pairwise_cons.mp hpair
    have hrest : ∀ {cursor : Nat}, (∀ q ∈ rest, q.1.IsBlockOf code cursor) →
        spliceFrom code cursor ((rest.filter f).map Block.fill) =
          spliceFrom code cursor (rest.map Block.fill) :=
      fun hblocks => ih hblocks hpair fun q hq => hkept q (mem_cons_of_mem p hq)
    cases hsel : f p with
    | true =>
      rw [filter_cons_of_pos hsel, map_cons, map_cons, spliceFrom, spliceFrom, hrest]
      exact fun q hq => { hblocks q (mem_cons_of_mem p hq) with le_start := hnext q hq }
    | false =>
      have hfill : Block.fill p = ⟨p.1.start, p.1.stop, code.slice p.1.start p.1.stop⟩ := by
        rw [Block.fill, hkept p mem_cons_self hsel, hp.content_eq]
      rw [filter_cons_of_neg (by simp [hsel]), map_cons, hfill,
        spliceFrom_self code hp.le_start hp.start_le]
      · exact hrest fun q hq => hblocks q (mem_cons_of_mem p hq)
      · intro s hs
        obtain ⟨q, hq, rfl⟩ := mem_map.mp hs
        exact hnext q hq

/-- **Contents that are replaced from the last block to the first**, in whatever order they are given:
the file is read from the front with all of them in their places. -/
theorem replaceContents_of_perm (hperm : contents.Perm filled) (hblocks : ∀ p ∈ filled, p.1.IsBlockOf code 0)
    (hpair : filled.Pairwise fun a b => a.1.stop ≤ b.1.start)
    (hstrict : filled.Pairwise fun a b => a.1.start < b.1.start) :
    replaceContents code contents = spliceFrom code 0 (filled.map Block.fill) := by
  -- Sorted by their beginnings, the given contents are in the order of the blocks.
  have hsorted : (sortDescending (fun c : Block × Text => [(c.1.start : Int)]) contents).reverse = filled :=
    reverse_sortDescending (fun p => (p.1.start : Int)) (fun _ => ⟨[], rfl⟩) hperm
      (hstrict.imp fun hlt => Int.ofNat_lt.mpr hlt)
  have hfold := foldr_splice code (follow_fill (Nat.zero_le _) hblocks hpair)
  rw [foldr_map] at hfold
  rw [replaceContents, ← reverse_reverse (sortDescending _ contents), hsorted,
    foldl_reverse]
  exact hfold

/-- The same where blocks that keep their content are not given. -/
theorem replaceContents_eq (hsplit : splitBlocks code = .ok blocks) (hfilled : filled.map Prod.fst = blocks)
    (hnodup : contents.Nodup) (hsub : contents ⊆ filled)
    (hkept : ∀ p ∈ filled, p ∉ contents → p.2 = p.1.content) :
    replaceContents code contents = spliceFrom code 0 (filled.map Block.fill) := by
  obtain ⟨hmem, hpair⟩ := splitBlocks_spec hsplit
  have hstrict := pairwise_start_lt hsplit
  subst hfilled
  have hblocks : ∀ p ∈ filled, p.1.IsBlockOf code 0 := fun p hp => hmem _ (mem_map_of_mem hp)
  rw [pairwise_map] at hpair hstrict
  have hperm : contents.Perm (filled.filter (· ∈ contents)) := by
    have hfilled : filled.Nodup := hstrict.imp fun hlt heq => absurd hlt (by simp [heq])
    rw [perm_ext_iff_of_nodup hnodup (hfilled.filter _)]
    intro p
    simp only [mem_filter, decide_eq_true_eq]
    exact ⟨fun hp => ⟨hsub hp, hp⟩, And.right⟩
  rw [replaceContents_of_perm hperm (fun p hp => hblocks p (mem_filter.mp hp).1)
    (hpair.sublist filter_sublist) (hstrict.sublist filter_sublist)]
  exact spliceFrom_filter hblocks hpair fun p hp hsel => hkept p hp (of_decide_eq_false hsel)

end Replace

end Phrasebook
