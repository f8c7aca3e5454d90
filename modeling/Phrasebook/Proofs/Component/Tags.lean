import Mathlib.Data.List.Find
import Phrasebook.Component.Block
import Phrasebook.Proofs.Text.Order
import Phrasebook.Proofs.Text.Slice

/-!
# How far tags are read

The closing tag of a script or a style holds no second opening bracket. The letters of a name are none of
the two brackets, also when case is ignored.

## Main results

* `openingTagAt?_spec`, `closingTagAt?_spec`, `templateTagAt?_spec` — a tag is read up to a closing bracket.
* `openingTagAt?_bracket`, `closingTagAt?_bracket`, `templateTagAt?_bracket` — what stands behind the
  bracket does not matter.
-/

namespace Phrasebook

open List Option

variable {b c letter stop : CodePoint} {t name : Text} {n : Nat} {tag : OpeningTag}

/-! ## Brackets and case -/

/-- Whether a code point is one of the brackets around tags. -/
def CodePoint.IsBracket (c : CodePoint) : Prop := c = '<' ∨ c = '>'

/-- No capital and no lower-case form stands among the digits and marks of ASCII. -/
lemma lowerRows_above : ∀ row ∈ lowerRows, 64 < row.1 ∧ (64 : Int) < row.1 + row.2.2.2 := by
  decide +kernel

lemma siblings_above : ∀ group ∈ caseSiblings, ∀ n ∈ group, 64 < n := by decide +kernel

namespace CodePoint

/-- Digits and marks have no lower case. -/
lemma lowerCode_of_le (h : n ≤ 64) : lowerCode n = n := by
  rw [lowerCode]
  split
  · rename_i row hrow
    have habove := (lowerRows_above row (mem_of_find?_eq_some hrow)).1
    have hin := find?_some hrow
    simp only [inLowerRow, Bool.and_eq_true, decide_eq_true_eq] at hin
    omega
  · rfl

lemma lowerCode_eq_self (h : lowerCode n ≤ 64) : lowerCode n = n := by
  rw [lowerCode] at h ⊢
  split at h
  · rename_i row hrow
    have habove := (lowerRows_above row (mem_of_find?_eq_some hrow)).2
    have hin := find?_some hrow
    simp only [inLowerRow, Bool.and_eq_true, decide_eq_true_eq] at hin
    omega
  · rfl

lemma IsBracket.toNat (h : c.IsBracket) : c.toNat = 60 ∨ c.toNat = 62 := by
  rcases h with rfl | rfl
  · exact .inl rfl
  · exact .inr rfl

/-- Digits and marks are no letters, also when case is ignored. -/
lemma eq_of_isAnyCaseOf (hc : c.toNat ≤ 64) (h : c.isAnyCaseOf letter) : letter = c := by
  rw [isAnyCaseOf, lowerCode_of_le hc, lowerForms, contains_iff_mem] at h
  split at h
  · rename_i group hgroup
    have habove := siblings_above group (mem_of_find?_eq_some hgroup) _ h
    omega
  · have hlow : lowerCode letter.toNat = c.toNat := (mem_singleton.mp h).symm
    have hself : lowerCode letter.toNat = letter.toNat := lowerCode_eq_self (by omega)
    exact eq_of_toNat_eq (hself.symm.trans hlow)

/-- A bracket is the other case of nothing. -/
lemma IsBracket.eq_of_isAnyCaseOf (hb : b.IsBracket) (h : b.isAnyCaseOf letter) : letter = b :=
  CodePoint.eq_of_isAnyCaseOf (by have := hb.toNat; omega) h

/-- A character whose lower-case form is a bracket is that bracket. -/
lemma IsBracket.eq_of_lower_eq (hb : b.IsBracket) (h : c.lower = b) : c = b := by
  rw [lower] at h
  cases hof : ofNat? (lowerCode c.toNat) with
  | none => simpa [hof] using h
  | some low =>
    obtain rfl : low = b := by simpa [hof] using h
    have hlow : lowerCode c.toNat = low.toNat := (toNat_of_ofNat? hof).symm
    have hself : lowerCode c.toNat = c.toNat := lowerCode_eq_self (by have := hb.toNat; omega)
    exact eq_of_toNat_eq (hself.symm.trans hlow)

lemma IsBracket.not_isBlank (h : b.IsBracket) : b.isBlank = false := by
  rcases h with rfl | rfl <;> decide +kernel

end CodePoint

namespace Text

/-- Lower-casing brings no bracket into a text. -/
lemma bracket_notMem_lower (hb : b.IsBracket) (h : b ∉ t) : b ∉ t.lower := by
  suffices hafter : ∀ before, b ∉ lowerAfter before t from hafter []
  induction t with
  | nil => simp [lowerAfter]
  | cons c rest ih =>
    intro before
    have hrest := ih (fun hmem => h (mem_cons_of_mem c hmem)) (c :: before)
    have hlower : c.lower ≠ b := fun heq => h (hb.eq_of_lower_eq heq ▸ mem_cons_self)
    simp only [lowerAfter, mem_append, hrest, or_false]
    split_ifs <;> rcases hb with rfl | rfl <;> simp [hlower.symm]

variable {stop : CodePoint} {word : Text}

/-- **Reading a word does not go past a bracket.** -/
theorem startsWithAnyCase_bracket (hstop : stop.IsBracket) (hword : stop ∉ word) (u r : Text) :
    startsWithAnyCase (u ++ stop :: r) word = startsWithAnyCase (u ++ [stop]) word := by
  induction u generalizing word with
  | nil =>
    cases word with
    | nil => rfl
    | cons letter word =>
      have hne : stop.isAnyCaseOf letter = false := by
        by_contra hany
        exact hword (hstop.eq_of_isAnyCaseOf (by simpa using hany) ▸ mem_cons_self)
      simp [startsWithAnyCase, hne]
  | cons c u ih =>
    cases word with
    | nil => rfl
    | cons letter word =>
      simp only [cons_append, startsWithAnyCase]
      rw [ih fun hmem => hword (mem_cons_of_mem letter hmem)]

/-- A word that is read before a bracket ends before it. -/
lemma length_le_of_startsWithAnyCase (hstop : stop.IsBracket) (hword : stop ∉ word) {u r : Text}
    (h : startsWithAnyCase (u ++ stop :: r) word) : word.length ≤ u.length := by
  induction u generalizing word with
  | nil =>
    cases word with
    | nil => simp
    | cons letter word =>
      simp only [nil_append, startsWithAnyCase, Bool.and_eq_true] at h
      exact absurd (hstop.eq_of_isAnyCaseOf h.1 ▸ mem_cons_self) hword
  | cons c u ih =>
    cases word with
    | nil => simp
    | cons letter word =>
      simp only [cons_append, startsWithAnyCase, Bool.and_eq_true] at h
      have hle := ih (fun hmem => hword (mem_cons_of_mem letter hmem)) h.2
      simpa using hle

/-- What is read as a word consists of the letters of the word, in any case. -/
lemma exists_letter_of_mem_take (h : startsWithAnyCase t word) (hc : c ∈ t.take word.length) :
    ∃ letter ∈ word, c.isAnyCaseOf letter := by
  induction word generalizing t with
  | nil => simp at hc
  | cons letter word ih =>
    cases t with
    | nil => simp at hc
    | cons d t =>
      simp only [startsWithAnyCase, Bool.and_eq_true] at h
      rw [length_cons, take_succ_cons, mem_cons] at hc
      rcases hc with rfl | hc
      · exact ⟨letter, mem_cons_self, h.1⟩
      · obtain ⟨letter', hmem, hcase⟩ := ih h.2 hc
        exact ⟨letter', mem_cons_of_mem letter hmem, hcase⟩

end Text

lemma CodePoint.closesTag_iff : c.closesTag ↔ c = '>' := by
  simp [closesTag]

/-- What stands before the first closing bracket does not depend on what follows one. -/
lemma takeWhile_closesTag_append (t r : Text) :
    (t ++ .scalar '>' :: r).takeWhile (fun c => !c.closesTag) = t.takeWhile fun c => !c.closesTag :=
  takeWhile_append_stop (p := fun c => !c.closesTag) rfl t r

lemma length_takeWhile_closesTag_lt (t r : Text) :
    (t.takeWhile fun c => !c.closesTag).length < (t ++ CodePoint.scalar '>' :: r).length := by
  rw [← takeWhile_closesTag_append t r]
  exact length_takeWhile_lt (p := fun c => !CodePoint.closesTag c) (c := .scalar '>') (by simp) rfl

/-! ## Opening tags -/

/-- Attributes end with the first closing bracket. -/
lemma attributesAt?_bracket (u r : Text) :
    attributesAt? (u ++ .scalar '>' :: r) = attributesAt? (u ++ [.scalar '>']) := by
  cases u with
  | nil => rfl
  | cons c u =>
    have hrun : ∀ r, (c :: (u ++ .scalar '>' :: r)).takeWhile (fun c => !c.closesTag) =
        (c :: u).takeWhile fun c => !c.closesTag := takeWhile_closesTag_append (c :: u)
    have hle : ∀ r : Text, ((c :: u).takeWhile fun c => !c.closesTag).length ≤
        (u ++ .scalar '>' :: r).length := fun r =>
      Nat.le_of_lt_succ (length_takeWhile_closesTag_lt (c :: u) r)
    simp only [attributesAt?, cons_append, hrun, hle, if_true]

/-- Attributes end before a closing bracket. -/
lemma attributesAt?_spec {attributes : Text} (h : attributesAt? t = some attributes) :
    ∃ r, t = attributes ++ .scalar '>' :: r := by
  cases t with
  | nil => simp [attributesAt?] at h
  | cons c rest =>
    simp only [attributesAt?] at h
    split_ifs at h with hclose hblank hle
    · obtain rfl := some.inj h
      exact ⟨rest, by rw [CodePoint.closesTag_iff.mp hclose]; rfl⟩
    · obtain rfl := some.inj h
      obtain ⟨stop, r, hstop, ht⟩ := exists_of_length_takeWhile_lt
        (show _ < (c :: rest).length from Nat.lt_succ_of_le hle)
      obtain rfl : stop = '>' := CodePoint.closesTag_iff.mp (by simpa using hstop)
      exact ⟨r, ht⟩

/-- No bracket stands in the name of a block. -/
lemma bracket_notMem_blockNames (hb : b.IsBracket) : ∀ name ∈ blockNames, b ∉ name := by
  rcases hb with rfl | rfl <;> decide

lemma openingTagAt?_of_ne (h : c ≠ '<') (t : Text) : openingTagAt? (c :: t) = none := by
  unfold openingTagAt?
  split
  · simp_all
  · rfl

/-- **Reading an opening tag does not go past a closing bracket.** -/
theorem openingTagAt?_bracket (u r : Text) :
    openingTagAt? (u ++ .scalar '>' :: r) = openingTagAt? (u ++ [.scalar '>']) := by
  cases u with
  | nil => rfl
  | cons c u =>
    by_cases hc : c = '<'
    · subst hc
      have hstop : CodePoint.IsBracket '>' := .inr rfl
      have hfind : (blockNames.find? fun name => Text.startsWithAnyCase (u ++ .scalar '>' :: r) name) =
          blockNames.find? fun name => Text.startsWithAnyCase (u ++ [.scalar '>']) name :=
        find?_congr fun name hname =>
          Text.startsWithAnyCase_bracket hstop (bracket_notMem_blockNames hstop name hname) u r
      simp only [cons_append, openingTagAt?, hfind]
      cases hname : blockNames.find? fun name => Text.startsWithAnyCase (u ++ [.scalar '>']) name with
      | none => rfl
      | some name =>
        have hle : name.length ≤ u.length := Text.length_le_of_startsWithAnyCase hstop
          (bracket_notMem_blockNames hstop name (mem_of_find?_eq_some hname))
          (find?_some hname)
        simp only [drop_append_of_le_length hle, take_append_of_le_length hle]
        rw [attributesAt?_bracket]
    · rw [cons_append, cons_append, openingTagAt?_of_ne hc, openingTagAt?_of_ne hc]

/-- **What is read as an opening tag**: the name of a block in any case, and attributes, in brackets. -/
theorem exists_of_openingTagAt? (h : openingTagAt? t = some tag) :
    ∃ word ∈ blockNames, ∃ name rest : Text,
      t = .scalar '<' :: (name ++ tag.attributes ++ .scalar '>' :: rest) ∧ name.lower = tag.name ∧
      tag.length = name.length + tag.attributes.length + 2 ∧ name.length = word.length ∧
      (∀ c ∈ name, ∃ letter ∈ word, c.isAnyCaseOf letter) ∧
      attributesAt? (tag.attributes ++ .scalar '>' :: rest) = some tag.attributes := by
  unfold openingTagAt? at h
  split at h
  · rename_i behind
    split at h
    · cases h
    · rename_i word hword
      obtain ⟨attributes, hattributes, rfl⟩ := map_eq_some_iff.mp h
      obtain ⟨rest, hrest⟩ := attributesAt?_spec hattributes
      have hlength : (behind.take word.length).length = word.length := by
        have := congrArg List.length hrest
        simp only [length_drop, length_append, length_cons] at this
        simp only [length_take]
        omega
      refine ⟨word, mem_of_find?_eq_some hword, behind.take word.length, rest, ?_, rfl, ?_, hlength,
        fun c hc => Text.exists_letter_of_mem_take (find?_some hword) hc, hrest ▸ hattributes⟩
      · rw [append_assoc, ← hrest, take_append_drop]
      · simp only [hlength]
  · cases h

/-- **Where an opening tag ends**: behind a closing bracket. Its name holds no bracket. -/
theorem openingTagAt?_spec (h : openingTagAt? t = some tag) :
    (∃ u r, t = u ++ .scalar '>' :: r ∧ tag.length = u.length + 1) ∧
      ∀ b : CodePoint, b.IsBracket → b ∉ tag.name := by
  obtain ⟨word, hword, name, rest, rfl, hname, hlength, -, hletters, -⟩ := exists_of_openingTagAt? h
  refine ⟨⟨.scalar '<' :: (name ++ tag.attributes), rest, rfl, ?_⟩, fun b hb => ?_⟩
  · rw [hlength, length_cons, length_append]
  · rw [← hname]
    refine Text.bracket_notMem_lower hb fun hmem => ?_
    obtain ⟨letter, hletter, hcase⟩ := hletters b hmem
    exact bracket_notMem_blockNames hb word hword (hb.eq_of_isAnyCaseOf hcase ▸ hletter)

/-! ## Closing tags -/

/-- What the first two characters of a closing tag are. -/
lemma startsWith_closing (a b : CodePoint) (t : Text) :
    Text.startsWith (a :: b :: t) "</" = (a == '<' && b == '/') := by
  show (('<' == a) && (('/' == b) && true)) = _
  rw [Bool.and_true, Bool.beq_comm, Bool.beq_comm (a := b)]

/-- **Reading a closing tag does not go past a bracket**, apart from the one it begins with. -/
theorem closingTagAt?_bracket (hstop : stop.IsBracket) (hname : stop ∉ name) (a : CodePoint) (s r : Text) :
    closingTagAt? name (a :: (s ++ stop :: r)) = closingTagAt? name (a :: (s ++ [stop])) := by
  cases s with
  | nil =>
    have hslash : (stop == '/') = false := by rcases hstop with rfl | rfl <;> rfl
    simp only [closingTagAt?, nil_append, startsWith_closing, hslash, Bool.and_false,
      Bool.false_and]
    rfl
  | cons b s =>
    have hdrop : ∀ t : Text, (a :: b :: t).drop (2 + name.length) = t.drop name.length := fun t => by
      rw [← drop_drop]
      rfl
    simp only [closingTagAt?, cons_append, startsWith_closing, drop_succ_cons, drop_zero,
      hdrop, Text.startsWithAnyCase_bracket hstop hname s r]
    by_cases hread : Text.startsWithAnyCase (s ++ [stop]) name
    · have hle := Text.length_le_of_startsWithAnyCase hstop hname hread
      have hblanks : ((s.drop name.length).takeWhile CodePoint.isBlank).length ≤
          (s.drop name.length).length := (List.takeWhile_prefix _).length_le
      simp only [drop_append_of_le_length hle, takeWhile_append_stop hstop.not_isBlank,
        drop_append_of_le_length hblanks, head?_append, head?_cons]
    · simp only [hread, Bool.and_false, Bool.false_eq_true, if_false]

/-- **Where a closing tag ends**: behind a closing bracket. -/
theorem closingTagAt?_spec {length : Nat} (h : closingTagAt? name t = some length) :
    ∃ u r, t = .scalar '<' :: (u ++ .scalar '>' :: r) ∧ length = u.length + 2 := by
  simp only [closingTagAt?, drop_drop] at h
  split_ifs at h with hstart hend
  obtain rfl := some.inj h
  match t, hstart with
  | [], hstart => cases hstart
  | [a], hstart =>
    rw [show Text.startsWith [a] "</" = ('<' == a && false) from rfl, Bool.and_false,
      Bool.false_and] at hstart
    cases hstart
  | a :: b :: t, hstart =>
    simp only [startsWith_closing, Bool.and_eq_true, beq_iff_eq] at hstart
    obtain ⟨⟨rfl, rfl⟩, -⟩ := hstart
    -- The tag consists of all before the closing bracket.
    generalize hblanks : (List.takeWhile CodePoint.isBlank _).length = blanks at hend ⊢
    obtain ⟨c, hc, hclose⟩ := any_eq_true _ _ |>.mp hend
    obtain rfl := CodePoint.closesTag_iff.mp hclose
    rw [show 2 + name.length + blanks = name.length + blanks + 2 by omega, drop_succ_cons,
      drop_succ_cons] at hc
    obtain ⟨r, hr⟩ := head?_eq_some_iff.mp hc
    have hlength := congrArg List.length hr
    simp only [length_drop, length_cons] at hlength
    refine ⟨.scalar '/' :: t.take (name.length + blanks), r, ?_, ?_⟩
    · rw [cons_append, ← hr, take_append_drop]
    · simp only [length_cons, length_take]
      omega

/-! ## Tags of templates -/

lemma bracket_notMem_template (hb : b.IsBracket) : b ∉ Text.ofString "template" :=
  bracket_notMem_blockNames hb _ mem_cons_self

section After

variable (closing : Bool) (opening : Nat)

/-- The rest of a tag ends with the first closing bracket. -/
lemma templateTagAfter?_bracket (u r : Text) :
    templateTagAfter? closing opening (u ++ .scalar '>' :: r) =
      templateTagAfter? closing opening (u ++ [.scalar '>']) := by
  have hstop : CodePoint.IsBracket '>' := .inr rfl
  have hword := bracket_notMem_template hstop
  simp only [templateTagAfter?, Text.startsWithAnyCase_bracket hstop hword u r]
  by_cases hread : Text.startsWithAnyCase (u ++ [.scalar '>']) "template"
  · have hle := Text.length_le_of_startsWithAnyCase hstop hword hread
    simp only [drop_append_of_le_length hle]
    simp only [takeWhile_closesTag_append, length_takeWhile_closesTag_lt, decide_true, Bool.true_and,
      head?_append, head?_cons]
  · simp only [hread, Bool.false_eq_true, if_false]

/-- Where a tag ends: behind the first closing bracket. -/
lemma templateTagAfter?_spec {tag : TemplateTag} (h : templateTagAfter? closing opening t = some tag) :
    ∃ u r, t = u ++ .scalar '>' :: r ∧ tag.length = opening + u.length + 1 := by
  simp only [templateTagAfter?] at h
  split_ifs at h with hread hinner
  obtain rfl := some.inj h
  simp only [Bool.and_eq_true, decide_eq_true_eq] at hinner
  obtain ⟨stop, r, hstop, hrest⟩ := exists_of_length_takeWhile_lt hinner.1
  obtain rfl : stop = '>' := CodePoint.closesTag_iff.mp (by simpa using hstop)
  have hlength := congrArg List.length hrest
  simp only [length_drop, length_append, length_cons] at hlength
  refine ⟨t.take (Text.ofString "template").length ++
    (t.drop (Text.ofString "template").length).takeWhile fun c => !c.closesTag, r, ?_, ?_⟩
  · rw [append_assoc, ← hrest, take_append_drop]
  · simp only [length_append, length_take]
    omega

/-- A tag before another one is read within the text before it, or runs into the other tag; which
of the two happens does not depend on that tag. -/
lemma templateTagAfter?_append (s : Text) :
    (∃ found : Option TemplateTag, (∀ tag ∈ found, tag.length ≤ opening + s.length) ∧
      ∀ x, CodePoint.scalar '>' ∈ x →
        templateTagAfter? closing opening (s ++ .scalar '<' :: x) = found) ∨
    ∀ x, CodePoint.scalar '>' ∈ x → ∃ tag,
      templateTagAfter? closing opening (s ++ .scalar '<' :: x) = some tag ∧
        opening + s.length < tag.length := by
  by_cases hclosed : CodePoint.scalar '>' ∈ s
  · obtain ⟨u, r, rfl⟩ := append_of_mem hclosed
    refine .inl ⟨templateTagAfter? closing opening (u ++ [.scalar '>']), fun tag htag => ?_, fun x _ => ?_⟩
    · obtain ⟨u', r', ht, hlength⟩ := templateTagAfter?_spec closing opening htag
      have := congrArg List.length ht
      simp only [length_append, length_cons, length_nil] at this ⊢
      omega
    · rw [append_assoc, cons_append, templateTagAfter?_bracket]
  · have hstop : CodePoint.IsBracket (.scalar '<') := .inl rfl
    have hword := bracket_notMem_template hstop
    by_cases hread : Text.startsWithAnyCase (s ++ [.scalar '<']) "template"
    · have hle := Text.length_le_of_startsWithAnyCase hstop hword hread
      have hopen : CodePoint.scalar '>' ∉ s.drop (Text.ofString "template").length :=
        fun hmem => hclosed (mem_of_mem_drop hmem)
      have hlength : (s.drop (Text.ofString "template").length).length =
          s.length - (Text.ofString "template").length := length_drop
      simp only [templateTagAfter?, Text.startsWithAnyCase_bracket hstop hword s, hread, if_true,
        drop_append_of_le_length hle]
      generalize s.drop (Text.ofString "template").length = v at hopen hlength
      -- The tag runs into the other one, up to the first closing bracket there.
      have hrun : ∀ x, (v ++ CodePoint.scalar '<' :: x).takeWhile (fun c => !c.closesTag) =
          v ++ .scalar '<' :: x.takeWhile fun c => !c.closesTag := fun x => by
        rw [takeWhile_append_of_pos]
        · rfl
        · intro c hc
          have hne : c ≠ '>' := fun heq => hopen (heq ▸ hc)
          simpa [CodePoint.closesTag_iff, Bool.eq_false_iff] using hne
      have hlt : ∀ x, CodePoint.scalar '>' ∈ x →
          (v ++ CodePoint.scalar '<' :: x.takeWhile fun c => !c.closesTag).length <
            (v ++ CodePoint.scalar '<' :: x).length := fun x hx => by
        have := length_takeWhile_lt (p := fun c => !CodePoint.closesTag c) hx rfl
        simpa using this
      cases hhead : (v ++ [CodePoint.scalar '<']).head?.any CodePoint.isWord with
      | true =>
        refine .inl ⟨none, by simp, fun x _ => ?_⟩
        simp only [head?_append, head?_cons] at hhead ⊢
        simp only [hhead, Bool.not_true, Bool.and_false, Bool.false_eq_true, if_false]
      | false =>
        refine .inr fun x hx => ?_
        simp only [head?_append, head?_cons] at hhead ⊢
        simp only [hhead, hrun, hlt x hx, decide_true, Bool.not_false, Bool.and_self, if_true]
        refine ⟨_, rfl, ?_⟩
        simp only [length_append, length_cons]
        omega
    · refine .inl ⟨none, by simp, fun x _ => ?_⟩
      simp only [templateTagAfter?, Text.startsWithAnyCase_bracket hstop hword s x, hread,
        Bool.false_eq_true, if_false]

end After

/-- A tag of a template is read behind its first one or two characters. -/
lemma templateTagAt?_cons (hstop : stop.IsBracket) (a : CodePoint) (s : Text) :
    (∀ r, templateTagAt? (a :: (s ++ stop :: r)) = none) ∨
      ∃ closing opening s', opening + s'.length = s.length + 1 ∧
        ∀ r, templateTagAt? (a :: (s ++ stop :: r)) =
          templateTagAfter? closing opening (s' ++ stop :: r) := by
  by_cases ha : a = '<'
  · subst ha
    have hplain : ∀ (c : CodePoint) (t : Text), c ≠ '/' →
        templateTagAt? ('<' :: c :: t) = templateTagAfter? false 1 (c :: t) := by
      intro c t hc
      unfold templateTagAt?
      split <;> simp_all
    refine .inr ?_
    cases s with
    | nil =>
      have hslash : stop ≠ '/' := by rcases hstop with rfl | rfl <;> decide
      exact ⟨false, 1, [], rfl, fun r => hplain stop r hslash⟩
    | cons b s =>
      by_cases hb : b = '/'
      · subst hb
        exact ⟨true, 2, s, by simp only [length_cons]; omega, fun r => rfl⟩
      · exact ⟨false, 1, b :: s, Nat.add_comm _ _, fun r => hplain b _ hb⟩
  · refine .inl fun r => ?_
    unfold templateTagAt?
    split <;> simp_all

/-- **Reading a tag of a template does not go past a closing bracket**, behind its first character. -/
theorem templateTagAt?_bracket (a : CodePoint) (s r : Text) :
    templateTagAt? (a :: (s ++ .scalar '>' :: r)) = templateTagAt? (a :: (s ++ [.scalar '>'])) := by
  obtain hnone | ⟨closing, opening, s', -, hread⟩ := templateTagAt?_cons (.inr rfl) a s
  · rw [hnone, hnone]
  · rw [hread, hread, templateTagAfter?_bracket]

/-- **Where a tag of a template ends**: behind a closing bracket. -/
theorem templateTagAt?_spec {tag : TemplateTag} (h : templateTagAt? t = some tag) :
    ∃ u r, t = .scalar '<' :: (u ++ .scalar '>' :: r) ∧ tag.length = u.length + 2 := by
  unfold templateTagAt? at h
  split at h
  · obtain ⟨u, r, rfl, hlength⟩ := templateTagAfter?_spec _ _ h
    exact ⟨'/' :: u, r, rfl, by rw [hlength, length_cons]; omega⟩
  · obtain ⟨u, r, rfl, hlength⟩ := templateTagAfter?_spec _ _ h
    exact ⟨u, r, rfl, by rw [hlength]; omega⟩
  · cases h

/-- **A tag of a template before another one** is read within the text before it, or runs into the
other tag; which of the two happens does not depend on that tag. -/
theorem templateTagAt?_append (a : CodePoint) (s : Text) :
    (∃ found : Option TemplateTag, (∀ tag ∈ found, tag.length ≤ s.length + 1) ∧
      ∀ x, CodePoint.scalar '>' ∈ x → templateTagAt? (a :: (s ++ .scalar '<' :: x)) = found) ∨
    ∀ x, CodePoint.scalar '>' ∈ x → ∃ tag,
      templateTagAt? (a :: (s ++ .scalar '<' :: x)) = some tag ∧ s.length + 1 < tag.length := by
  obtain hnone | ⟨closing, opening, s', hlength, hread⟩ := templateTagAt?_cons (.inl rfl) a s
  · exact .inl ⟨none, by simp, fun x _ => hnone x⟩
  · simp only [hread, ← hlength]
    exact templateTagAfter?_append closing opening s'

end Phrasebook
