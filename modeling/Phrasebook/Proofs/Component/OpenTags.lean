import Phrasebook.Proofs.Component.Assembly
import Phrasebook.Proofs.Component.Renewal

/-!
# Where opening tags end

Two scanners decide where a tag ends. The splitter ends the opening tag of a block at the first closing
bracket; the scanner of markup passes over the brackets that stand between quotes.

## Main results

* `heads_of_openingTagAt?`, `exists_tag_head` — how the two of them read a tag.
* `splitBlocks_start_eq_iff` — they agree on a tag exactly if no value in it holds a closing bracket.
-/

namespace Phrasebook

open List Option Text

variable {tag : OpeningTag} {r t inner name rest : Text} {start : Nat}

/-! ## What opening tags are written as -/

lemma lt_of_mem_blockNames : ∀ name ∈ blockNames, ∀ letter ∈ name, 64 < letter.toNat := by decide

/-- Attributes end at the first closing bracket. -/
lemma bracket_notMem_attributesAt? {attributes : Text} (h : attributesAt? t = some attributes) :
    CodePoint.scalar '>' ∉ attributes := by
  cases t with
  | nil => simp [attributesAt?] at h
  | cons c rest =>
    simp only [attributesAt?] at h
    split_ifs at h with hclose hblank hle
    · obtain rfl := some.inj h
      exact not_mem_nil
    · obtain rfl := some.inj h
      intro hmem
      have hopen := mem_takeWhile_imp hmem
      exact absurd hopen (by decide)

/-- **An opening tag at the beginning of a text**, with its name as it is written there. -/
structure OpeningTag.Heads (tag : OpeningTag) (name rest t : Text) : Prop where
  text_eq : t = .scalar '<' :: (name ++ tag.attributes ++ .scalar '>' :: rest)
  lower_name : name.lower = tag.name
  length_eq : tag.length = name.length + tag.attributes.length + 2
  name_ne : name ≠ []
  /-- None of its characters has a meaning in markup. -/
  plain_name : ∀ c ∈ name, (c.isQuote = false ∧ c.closesTag = false) ∧ c ≠ '!'
  closed : CodePoint.scalar '>' ∉ tag.attributes

/-- **What the splitter reads as an opening tag.** -/
theorem heads_of_openingTagAt? (h : openingTagAt? t = some tag) : ∃ name rest, tag.Heads name rest t := by
  obtain ⟨word, hword, name, rest, htext, hname, hlength, hsize, hletters, hattributes⟩ :=
    exists_of_openingTagAt? h
  refine ⟨name, rest, htext, hname, hlength, ?_, fun c hc => ?_, bracket_notMem_attributesAt? hattributes⟩
  · have hpos : ∀ word ∈ blockNames, 0 < word.length := by decide
    exact ne_nil_of_length_pos (hsize ▸ hpos word hword)
  · obtain ⟨letter, hletter, hcase⟩ := hletters c hc
    have hmark : ∀ mark : CodePoint, mark.toNat ≤ 64 → c ≠ mark := by
      rintro mark hle rfl
      have hlt := lt_of_mem_blockNames word hword letter hletter
      rw [CodePoint.eq_of_isAnyCaseOf hle hcase] at hlt
      omega
    have hdouble := hmark '"' (by decide)
    have hsingle := hmark '\'' (by decide)
    have hclose := hmark '>' (by decide)
    have hexclamation := hmark '!' (by decide)
    simp [CodePoint.isQuote, CodePoint.closesTag, hdouble, hsingle, hclose, hexclamation]

namespace OpeningTag.Heads

variable {tag : OpeningTag} {name rest t : Text}

/-- An opening tag begins no comment. -/
lemma not_comment (h : tag.Heads name rest t) : ¬ t.startsWith commentOpening := by
  intro hcomment
  obtain ⟨u, hu⟩ := startsWith_iff.mp hcomment
  obtain ⟨c, letters, rfl⟩ := exists_cons_of_ne_nil h.name_ne
  rw [h.text_eq, show commentOpening = [.scalar '<', .scalar '!', .scalar '-', .scalar '-'] from rfl] at hu
  simp only [cons_append, List.cons.injEq] at hu
  exact (h.plain_name c mem_cons_self).2 hu.2.1

/-- Behind the attributes the same quote is open whether the name is read or not. -/
lemma openQuote?_eq (h : tag.Heads name rest t) :
    openQuote? none (name ++ tag.attributes) = openQuote? none tag.attributes := by
  rw [openQuote?_append, openQuote?_of_plain fun c hc => (h.plain_name c hc).1, bind_some]

/-- The first closing bracket stands at the end of the tag. -/
lemma bracket_notMem (h : tag.Heads name rest t) : CodePoint.scalar '>' ∉ name ++ tag.attributes := by
  rw [mem_append, not_or]
  refine ⟨fun hmem => ?_, h.closed⟩
  have hclose := (h.plain_name _ hmem).1.2
  exact absurd hclose (by decide)

end OpeningTag.Heads

/-! ## Where the scanner ends tags -/

/-- Without a closing bracket a tag stays open. -/
lemma openQuote?_isSome (h : CodePoint.scalar '>' ∉ t) (quote : Option CodePoint) :
    ∃ quote', openQuote? quote t = some quote' := by
  cases hopen : openQuote? quote t with
  | some quote' => exact ⟨quote', rfl⟩
  | none =>
    obtain ⟨u, r, rfl, -⟩ := exists_of_openQuote?_eq_none hopen
    exact absurd (mem_append_right u mem_cons_self) h

/-- **The scanner always ends a tag**, and not before it has read what there is of it. -/
theorem exists_tag_head (start offset : Nat) (quote : Option CodePoint) (t : Text) :
    ∃ stop, (markupPartsFrom offset (.tag start quote) t).head? = some (.tag start stop) ∧
      offset ≤ stop ∧ (t ≠ [] → offset < stop) := by
  induction t generalizing offset quote with
  | nil => exact ⟨offset, rfl, le_rfl, fun hne => absurd rfl hne⟩
  | cons c t ih =>
    have hnext : ∀ quote, ∃ stop, (markupPartsFrom (offset + 1) (.tag start quote) t).head? =
        some (.tag start stop) ∧ offset ≤ stop ∧ (c :: t ≠ [] → offset < stop) := by
      intro quote
      obtain ⟨stop, hhead, hle, -⟩ := ih (offset + 1) quote
      exact ⟨stop, hhead, Nat.le_of_succ_le hle, fun _ => hle⟩
    cases quote with
    | some q => exact hnext _
    | none =>
      rw [markupPartsFrom]
      split_ifs
      · exact hnext _
      · exact ⟨offset + 1, rfl, Nat.le_succ offset, fun _ => Nat.lt_succ_self offset⟩
      · exact hnext _

/-- At a bracket that does not open a comment the scanner begins with a tag. -/
lemma markupPartsFrom_begin (h : ¬ Text.startsWith ('<' :: r) commentOpening) :
    markupPartsFrom start (.text start) (.scalar '<' :: r) =
      markupPartsFrom (start + 1) (.tag start none) r := by
  rw [markupPartsFrom_open, if_neg h, textPart, if_neg (lt_irrefl start), nil_append]

/-- **The scanner ends a tag at the first closing bracket that does not stand between quotes.** -/
theorem head?_markupPartsFrom_closed
    (h : ¬ Text.startsWith (.scalar '<' :: (inner ++ .scalar '>' :: r)) commentOpening)
    (hinner : openQuote? none inner = some none) :
    (markupPartsFrom start (.text start) (.scalar '<' :: (inner ++ .scalar '>' :: r))).head? =
      some (.tag start (start + inner.length + 2)) := by
  rw [markupPartsFrom_begin h, markupPartsFrom_tag hinner, markupPartsFrom, if_neg (by decide),
    if_pos (by decide), head?_cons, show start + 1 + inner.length + 1 = start + inner.length + 2 by omega]

/-! ## The two scanners -/

/-- The scanner ends an opening tag where the splitter does, exactly if no quote is open there. -/
lemma OpeningTag.Heads.head?_iff (h : tag.Heads name rest t) (hrest : rest ≠ []) (start : Nat) :
    ∃ stop, (markupPartsFrom start (.text start) t).head? = some (.tag start stop) ∧
      (start + tag.length = stop ↔ openQuote? none tag.attributes = some none) := by
  have hcomment := h.not_comment
  obtain ⟨quote, hquote⟩ := openQuote?_isSome h.bracket_notMem none
  obtain rfl := h.text_eq
  rw [← h.openQuote?_eq]
  cases quote with
  | none =>
    refine ⟨_, head?_markupPartsFrom_closed hcomment hquote, iff_of_true ?_ hquote⟩
    rw [h.length_eq, length_append]
    omega
  | some q =>
    -- the bracket stands between quotes, and there is something behind it
    obtain ⟨stop, hhead, -, hlt⟩ := exists_tag_head start
      (start + 1 + (name ++ tag.attributes).length + 1)
      (if '>' == q then none else some q) rest
    refine ⟨stop, ?_, iff_of_false ?_ ?_⟩
    · rw [markupPartsFrom_begin hcomment, markupPartsFrom_tag hquote, markupPartsFrom, hhead]
    · have := hlt hrest
      rw [h.length_eq]
      simp only [length_append] at this
      omega
    · simp [hquote]

/-- A tag whose last bracket is the only closing one ends at the first, and no other does. -/
lemma OpeningTag.Heads.length_eq_iff (h : tag.Heads name rest t)
    (ht : t = .scalar '<' :: (inner ++ .scalar '>' :: r)) :
    tag.length = inner.length + 2 ↔ CodePoint.scalar '>' ∉ inner := by
  have hsame : name ++ tag.attributes ++ .scalar '>' :: rest = inner ++ .scalar '>' :: r :=
    tail_eq_of_cons_eq (h.text_eq.symm.trans ht)
  have hlength := h.length_eq
  rw [show name.length + tag.attributes.length = (name ++ tag.attributes).length by simp] at hlength
  constructor
  · intro heq
    obtain ⟨rfl, -⟩ := append_inj hsame (by omega)
    exact h.bracket_notMem
  · intro hinner
    have hfirst : ∀ {u r : Text}, CodePoint.scalar '>' ∉ u →
        (u ++ .scalar '>' :: r).idxOf (.scalar '>') = u.length := fun hu => by
      rw [idxOf_append_of_notMem hu, idxOf_cons_self, Nat.add_zero]
    have := hfirst (r := rest) h.bracket_notMem
    rw [hsame, hfirst hinner] at this
    omega

/-- Every block has an opening tag. -/
lemma Tagged.exists_tag {code : Text} {cursor : Nat} {blocks : List Block} (h : Tagged code cursor blocks)
    {b : Block} (hb : b ∈ blocks) :
    ∃ tag : OpeningTag, openingTagAt? (code.drop (b.start - tag.length)) = some tag ∧
      tag.name = b.name ∧ tag.attributes = b.attributes ∧ tag.length ≤ b.start ∧ b.start < code.length := by
  induction blocks generalizing cursor with
  | nil => cases hb
  | cons first blocks ih =>
    obtain ⟨tag, closing, hread, -, hname, hattributes, hstart, hle, -, hclose, hrest⟩ := h
    rcases mem_cons.mp hb with rfl | hb
    · obtain ⟨u, r, hbehind, -⟩ := closerAt?_spec hclose
      have hlt : b.stop < code.length := by
        by_contra hge
        rw [drop_eq_nil_of_le (Nat.le_of_not_lt hge)] at hbehind
        cases hbehind
      exact ⟨tag, hread, hname, hattributes, by omega, by omega⟩
    · exact ih hrest hb

/-- **Where the two scanners agree about the opening tag of a block.** For every block that a file is
split into, let `start` be the offset of the opening bracket of its tag, and `stop` the end of the tag that
the scanner of markup finds from there.

* Between `start` and the content stand the name and the attributes of the block, in brackets.
* The content begins at `stop` exactly if its attributes leave no quote open.
* If the tag is properly quoted, then `stop` is behind the first bracket that stands outside quotes, and
  the content begins there exactly if no other closing bracket stands in the tag: a value that holds one
  is cut there. -/
theorem splitBlocks_start_eq_iff {code : Text} {blocks : List Block} (h : splitBlocks code = .ok blocks)
    {b : Block} (hb : b ∈ blocks) :
    ∃ (start stop : Nat) (name : Text), name.lower = b.name ∧
      code.slice start b.start = .scalar '<' :: (name ++ b.attributes ++ [.scalar '>']) ∧
      (markupPartsFrom start (.text start) (code.drop start)).head? = some (.tag start stop) ∧
      (b.start = stop ↔ openQuote? none b.attributes = some none) ∧
      ∀ inner rest, code.drop start = .scalar '<' :: (inner ++ .scalar '>' :: rest) →
        openQuote? none inner = some none →
        stop = start + inner.length + 2 ∧ (b.start = stop ↔ CodePoint.scalar '>' ∉ inner) := by
  obtain ⟨tag, hread, hname, hattributes, hlength, hbehind⟩ :=
    ((splits_of_splitBlocksFrom h).tagged rfl (Nat.zero_le _)).exists_tag hb
  obtain ⟨name, rest, hheads⟩ := heads_of_openingTagAt? hread
  have hrest : rest ≠ [] := by
    rintro rfl
    have := congrArg List.length hheads.text_eq
    have := hheads.length_eq
    simp only [length_drop, length_cons, length_append, length_nil] at *
    omega
  obtain ⟨stop, hhead, hiff⟩ := hheads.head?_iff hrest (b.start - tag.length)
  rw [Nat.sub_add_cancel hlength, hattributes] at hiff
  refine ⟨b.start - tag.length, stop, name, hheads.lower_name.trans hname, ?_, hhead, hiff, ?_⟩
  · have hsplit : code.drop (b.start - tag.length) =
        .scalar '<' :: (name ++ b.attributes ++ [.scalar '>']) ++ rest := by
      rw [hheads.text_eq, hattributes]
      simp
    rw [slice_eq_take_drop, hsplit, take_left']
    have := hheads.length_eq
    simp only [length_cons, length_append, length_nil, ← hattributes]
    omega
  · intro inner r hinner hquote
    have hcomment := hheads.not_comment
    rw [hinner] at hcomment hhead
    rw [head?_markupPartsFrom_closed hcomment hquote, some.injEq, Part.tag.injEq] at hhead
    refine ⟨hhead.2.symm, ?_⟩
    rw [← hheads.length_eq_iff hinner]
    omega

/-- A comparison in a value: the tag ends behind the value, but the content begins in the middle of it. -/
theorem splitBlocks_start_eq_iff_comparison :
    let code : Text := "<template v-if=\"a > b\">x</template>"
    let b : Block := ⟨"template", " v-if=\"a ", 19, 24, " b\">x"⟩
    splitBlocks code = .ok [b] ∧ (markupParts code).head? = some (.tag 0 23) ∧ b.start ≠ 23 := by
  intro code b
  have hfound : (splitBlocks code).toOption.any (fun found => found == [b]) = true := by decide +kernel
  obtain ⟨found, hsplit, hsame⟩ := exists_ok_of_any hfound
  rw [show found = [b] by simpa using hsame] at hsplit
  obtain ⟨start, stop, name, -, hslice, hhead, -, hproper⟩ :=
    splitBlocks_start_eq_iff hsplit (mem_singleton_self b)
  obtain rfl : start = 0 := by
    have hbracket : ∀ i < 19, (code.slice i 19).head? = some (.scalar '<') → i = 0 := by decide
    refine hbracket start (Nat.lt_of_not_le fun hle => ?_) (by rw [hslice]; rfl)
    rw [slice_eq_take_drop, Nat.sub_eq_zero_of_le hle] at hslice
    cases hslice
  obtain ⟨rfl, hiff⟩ := hproper "template v-if=\"a > b\"" "x</template>" (by decide) (by decide)
  exact ⟨hsplit, hhead, fun heq => absurd (hiff.mp heq) (by decide)⟩

end Phrasebook
