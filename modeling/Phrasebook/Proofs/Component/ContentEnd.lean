import Phrasebook.Proofs.Component.Tags

/-!
# Where a content ends

The content of a block ends before the first closing tag that fits its opening tag.

## Main results

* `contentEnd?_append_iff`, `staysInside_iff` — whether a content ends before a given closing tag depends
  on the content alone: it must not hold a closing tag of its own, it must not leave a template open, and
  no tag in it may run into the closing tag.
-/

namespace Phrasebook

open List Option

variable {k length offset place m skip : Nat} {name t x y : Text}

/-! ## Closing tags -/

/-- The length of the closing tag of a block that a text begins with. -/
def closerAt? (name t : Text) : Option Nat :=
  if name == "template" then ((templateTagAt? t).filter TemplateTag.closing).map TemplateTag.length
  else closingTagAt? name t

/-- What ends a content stands between brackets. -/
lemma closerAt?_spec (h : closerAt? name t = some length) :
    ∃ u r, t = .scalar '<' :: (u ++ .scalar '>' :: r) ∧ length = u.length + 2 := by
  rw [closerAt?] at h
  split_ifs at h
  · obtain ⟨tag, htag, rfl⟩ := map_eq_some_iff.mp h
    exact templateTagAt?_spec (filter_eq_some_iff.mp htag).1
  · exact closingTagAt?_spec h

/-- What follows a closing tag does not matter for reading it. -/
lemma closerAt?_append {close r : Text} (hname : .scalar '>' ∉ name)
    (h : closerAt? name (close ++ r) = some close.length) (r' : Text) :
    closerAt? name (close ++ r') = some close.length := by
  obtain ⟨u, s, ht, hlength⟩ := closerAt?_spec h
  obtain rfl : close = .scalar '<' :: (u ++ [.scalar '>']) := by
    have ht' : close ++ r = (.scalar '<' :: (u ++ [.scalar '>'])) ++ s := by simp [ht]
    exact (append_inj ht' (by simp [hlength])).1
  have hread : ∀ r, closerAt? name (.scalar '<' :: (u ++ [.scalar '>']) ++ r) =
      closerAt? name (.scalar '<' :: (u ++ [.scalar '>'])) := by
    intro r
    simp only [closerAt?, cons_append, append_assoc, nil_append,
      templateTagAt?_bracket _ u r, closingTagAt?_bracket (.inr rfl) hname _ u r]
  rw [hread] at h ⊢
  exact h

/-- The closing tag of a block, as it is usually written. -/
def closingTag (name : Text) : Text := "</" ++ name ++ ">"

lemma CodePoint.isAnyCaseOf_self (c : CodePoint) : c.isAnyCaseOf c := by
  rw [isAnyCaseOf, lowerForms]
  split
  · rename_i group hgroup
    have hmem := find?_some hgroup
    exact hmem
  · simp

lemma Text.startsWithAnyCase_append (word t : Text) : startsWithAnyCase (word ++ t) word := by
  induction word with
  | nil => cases t <;> rfl
  | cons letter word ih => simp [startsWithAnyCase, letter.isAnyCaseOf_self, ih]

/-- The closing tag of a name is read as one. -/
lemma closingTagAt?_closingTag (name : Text) :
    closingTagAt? name (closingTag name) = some (name.length + 3) := by
  have htag : closingTag name = .scalar '<' :: .scalar '/' :: (name ++ [.scalar '>']) := rfl
  have hdrop : (CodePoint.scalar '<' :: .scalar '/' :: (name ++ [.scalar '>'])).drop (2 + name.length) =
      [.scalar '>'] := by
    rw [← drop_drop]
    exact drop_left
  have hread : Text.startsWithAnyCase (name ++ [.scalar '>']) name :=
    name.startsWithAnyCase_append _
  have hblank : CodePoint.isBlank (.scalar '>') = false := CodePoint.IsBracket.not_isBlank (.inr rfl)
  simp only [htag, closingTagAt?, startsWith_closing, hdrop, drop_succ_cons, drop_zero, hread,
    takeWhile_cons, hblank]
  simp [CodePoint.closesTag, Nat.add_comm, Nat.add_left_comm]

lemma closerAt?_closingTag (name : Text) : ∃ length, closerAt? name (closingTag name) = some length := by
  rw [closerAt?]
  split_ifs with hname
  · rw [eq_of_beq hname]
    exact ⟨11, by decide +kernel⟩
  · exact ⟨_, closingTagAt?_closingTag name⟩

/-! ## Scripts and styles -/

/-- A closing tag is found where one stands. -/
lemma findClosingTag?_spec (h : findClosingTag? name offset t = some (place, length)) :
    offset ≤ place ∧ closingTagAt? name (t.drop (place - offset)) = some length := by
  induction t generalizing offset with
  | nil => simp [findClosingTag?] at h
  | cons c rest ih =>
    rw [findClosingTag?] at h
    split at h
    · rename_i hread
      obtain ⟨rfl, rfl⟩ := Prod.mk.inj (some.inj h)
      exact ⟨le_rfl, by simpa using hread⟩
    · obtain ⟨hle, hread⟩ := ih h
      rw [show place - offset = place - (offset + 1) + 1 by omega, drop_succ_cons]
      exact ⟨by omega, hread⟩

/-- How a closing tag is written does not matter for where the first one is found. -/
lemma findClosingTag?_append_iff (hname : .scalar '<' ∉ name) (hx : closingTagAt? name x = some k)
    (hy : closingTagAt? name y = some m) (c : Text) (offset : Nat) :
    findClosingTag? name offset (c ++ x) = some (offset + c.length, k) ↔
      findClosingTag? name offset (c ++ y) = some (offset + c.length, m) := by
  obtain ⟨u, r, rfl, -⟩ := closingTagAt?_spec hx
  obtain ⟨u', r', rfl, -⟩ := closingTagAt?_spec hy
  induction c generalizing offset with
  | nil => simp [findClosingTag?, hx, hy]
  | cons a c ih =>
    have hread := fun r => closingTagAt?_bracket (.inl rfl) hname a c r
    have hlength : offset + (a :: c).length = offset + 1 + c.length := by
      rw [length_cons]
      omega
    simp only [cons_append, findClosingTag?, hread, hlength]
    cases closingTagAt? name (a :: (c ++ [.scalar '<'])) with
    | none => exact ih (offset + 1)
    | some length =>
      -- A closing tag is found too early, before the one and before the other.
      simp only [some.injEq, Prod.mk.injEq]
      omega

/-! ## Templates -/

/-- How many templates are open behind a tag. -/
def TemplateTag.depthAfter (tag : TemplateTag) (depth : Nat) : Nat :=
  if tag.closing then depth - 1 else if tag.closesItself then depth else depth + 1

lemma findTemplateEnd?_cons (offset depth : Nat) (c : CodePoint) (rest : Text) :
    findTemplateEnd? offset 0 depth (c :: rest) =
      match templateTagAt? (c :: rest) with
      | none => findTemplateEnd? (offset + 1) 0 depth rest
      | some tag =>
        if tag.closing ∧ depth = 0 then some (offset, tag.length)
        else findTemplateEnd? (offset + 1) (tag.length - 1) (tag.depthAfter depth) rest := by
  rw [findTemplateEnd?]
  cases templateTagAt? (c :: rest) with
  | none => rfl
  | some tag =>
    cases hclosing : tag.closing with
    | true => cases depth <;> simp [TemplateTag.depthAfter, hclosing]
    | false => simp [TemplateTag.depthAfter, hclosing]

lemma findTemplateEnd?_skip (offset skip depth : Nat) (t : Text) :
    findTemplateEnd? offset skip depth t = findTemplateEnd? (offset + skip) 0 depth (t.drop skip) := by
  induction t generalizing offset skip with
  | nil => simp [findTemplateEnd?]
  | cons c rest ih =>
    cases skip with
    | zero => rfl
    | succ skip =>
      rw [findTemplateEnd?, ih, drop_succ_cons]
      congr 1
      omega

/-- A template ends with a closing tag. -/
lemma findTemplateEnd?_spec {depth : Nat} (h : findTemplateEnd? offset skip depth t = some (place, length)) :
    offset + skip ≤ place ∧ ∃ tag, templateTagAt? (t.drop (place - offset)) = some tag ∧
      tag.closing ∧ tag.length = length := by
  induction t generalizing offset skip depth with
  | nil => simp [findTemplateEnd?] at h
  | cons c rest ih =>
    have hnext : ∀ {skip' depth'}, skip ≤ skip' + 1 →
        findTemplateEnd? (offset + 1) skip' depth' rest = some (place, length) →
        offset + skip ≤ place ∧ ∃ tag, templateTagAt? ((c :: rest).drop (place - offset)) = some tag ∧
          tag.closing ∧ tag.length = length := by
      intro skip' depth' hskip hrest
      obtain ⟨hle, htag⟩ := ih hrest
      rw [show place - offset = place - (offset + 1) + 1 by omega, drop_succ_cons]
      exact ⟨by omega, htag⟩
    cases skip with
    | succ skip => exact hnext le_rfl h
    | zero =>
      rw [findTemplateEnd?_cons] at h
      cases htag : templateTagAt? (c :: rest) with
      | none => exact hnext (Nat.zero_le _) (by simpa only [htag] using h)
      | some tag =>
        simp only [htag] at h
        split_ifs at h with hend
        · obtain ⟨rfl, rfl⟩ := Prod.mk.inj (some.inj h)
          exact ⟨le_rfl, tag, by simpa using htag, hend.1, rfl⟩
        · exact hnext (Nat.zero_le _) h

/-- Nothing is found in what belongs to the last tag. -/
lemma findTemplateEnd?_ne (h : place < offset + skip) (depth : Nat) (t : Text) (length : Nat) :
    findTemplateEnd? offset skip depth t ≠ some (place, length) := by
  intro hfound
  have hle := (findTemplateEnd?_spec hfound).1
  omega

/-- How the closing tag of a template is written does not matter for whether a template ends there.

**Proof sketch.** Strong induction on the text before the closing tag. The first tag in it is read
within it, and then both searches go on behind it with the same depth; or it runs into the closing
tag, and then neither search can end there. -/
lemma findTemplateEnd?_append_iff {tag tag' : TemplateTag} (hx : templateTagAt? x = some tag)
    (hxc : tag.closing) (hy : templateTagAt? y = some tag') (hyc : tag'.closing) (c : Text)
    (offset depth : Nat) :
    findTemplateEnd? offset 0 depth (c ++ x) = some (offset + c.length, tag.length) ↔
      findTemplateEnd? offset 0 depth (c ++ y) = some (offset + c.length, tag'.length) := by
  obtain ⟨u, r, rfl, -⟩ := templateTagAt?_spec hx
  obtain ⟨u', r', rfl, -⟩ := templateTagAt?_spec hy
  induction hn : c.length using Nat.strong_induction_on generalizing c offset depth with
  | _ n ih =>
    subst hn
    cases c with
    | nil =>
      simp only [nil_append, findTemplateEnd?_cons, hx, hy, hxc, hyc, true_and]
      by_cases hdepth : depth = 0
      · simp [hdepth]
      · have hlt : ∀ skip, offset + ([] : Text).length < offset + 1 + skip := fun skip => by
          rw [length_nil]
          omega
        simp only [hdepth, if_false, findTemplateEnd?_ne (hlt _)]
    | cons a c =>
      have hlength : offset + (a :: c).length = offset + 1 + c.length := by
        rw [length_cons]
        omega
      obtain ⟨found, hle, hread⟩ | hruns := templateTagAt?_append a c
      · simp only [cons_append, findTemplateEnd?_cons, hread (u ++ .scalar '>' :: r) (by simp),
          hread (u' ++ .scalar '>' :: r') (by simp), hlength]
        cases found with
        | none => exact ih c.length (by simp) c (offset + 1) depth rfl
        | some first =>
          have hfirst := hle first rfl
          by_cases hend : first.closing ∧ depth = 0
          · simp only [hend, and_self, if_true, some.injEq, Prod.mk.injEq]
            omega
          · -- Both searches go on behind the tag, with the rest of the text before the closing tag.
            have hshorter : (c.drop (first.length - 1)).length < (a :: c).length := by
              rw [length_drop, length_cons]
              omega
            have hnext := ih _ hshorter _ (offset + 1 + (first.length - 1)) (first.depthAfter depth) rfl
            rw [length_drop, show offset + 1 + (first.length - 1) + (c.length - (first.length - 1)) =
              offset + 1 + c.length by omega] at hnext
            simp only [hend, if_false, findTemplateEnd?_skip _ (first.length - 1),
              drop_append_of_le_length (show first.length - 1 ≤ c.length by omega)]
            exact hnext
      · obtain ⟨first, hfirst, hlt⟩ := hruns (u ++ .scalar '>' :: r) (by simp)
        obtain ⟨first', hfirst', hlt'⟩ := hruns (u' ++ .scalar '>' :: r') (by simp)
        have hnone : ∀ (first : TemplateTag), c.length + 1 < first.length → ∀ (t : Text) (length : Nat),
            (if first.closing ∧ depth = 0 then some (offset, first.length)
              else findTemplateEnd? (offset + 1) (first.length - 1) (first.depthAfter depth) t) ≠
                some (offset + 1 + c.length, length) := by
          intro first hlt t length
          split_ifs
          · simp only [ne_eq, some.injEq, Prod.mk.injEq]
            omega
          · exact findTemplateEnd?_ne (by omega) _ _ _
        simp only [cons_append, findTemplateEnd?_cons, hfirst, hfirst', hlength]
        exact iff_of_false (hnone first hlt _ _) (hnone first' hlt' _ _)

/-! ## Contents -/

/-- **A content ends before a closing tag.** -/
theorem contentEnd?_spec {closing : Nat} (h : contentEnd? name t = some (length, closing)) :
    closerAt? name (t.drop length) = some closing := by
  rw [contentEnd?] at h
  rw [closerAt?]
  split_ifs at h ⊢
  · obtain ⟨-, tag, htag, hclosing, rfl⟩ := findTemplateEnd?_spec h
    rw [Nat.sub_zero] at htag
    simp [htag, hclosing]
  · simpa using (findClosingTag?_spec h).2

/-- **How a closing tag is written does not matter** for whether a content ends there. -/
theorem contentEnd?_append_iff (hname : .scalar '<' ∉ name) (hx : closerAt? name x = some k)
    (hy : closerAt? name y = some m) (c : Text) :
    contentEnd? name (c ++ x) = some (c.length, k) ↔ contentEnd? name (c ++ y) = some (c.length, m) := by
  rw [closerAt?] at hx hy
  rw [contentEnd?, contentEnd?]
  split_ifs at hx hy ⊢
  · obtain ⟨tag, htag, rfl⟩ := map_eq_some_iff.mp hx
    obtain ⟨tag', htag', rfl⟩ := map_eq_some_iff.mp hy
    obtain ⟨htag, hclosing⟩ := filter_eq_some_iff.mp htag
    obtain ⟨htag', hclosing'⟩ := filter_eq_some_iff.mp htag'
    simpa using findTemplateEnd?_append_iff htag hclosing htag' hclosing' c 0 0
  · simpa using findClosingTag?_append_iff hname hx hy c 0

/-- **A content that stays inside its block**: it ends where the closing tag behind it begins. -/
def StaysInside (name content : Text) : Prop :=
  (contentEnd? name (content ++ closingTag name)).map Prod.fst = some content.length

instance (name content : Text) : Decidable (StaysInside name content) :=
  inferInstanceAs (Decidable (_ = _))

/-- **A content that stays inside** does so before every closing tag of its block. -/
theorem staysInside_iff (hname : .scalar '<' ∉ name) (hx : closerAt? name x = some k) (c : Text) :
    StaysInside name c ↔ contentEnd? name (c ++ x) = some (c.length, k) := by
  obtain ⟨m, hm⟩ := closerAt?_closingTag name
  rw [contentEnd?_append_iff hname hx hm, StaysInside, map_eq_some_iff]
  constructor
  · rintro ⟨⟨length, closing⟩, hend, rfl⟩
    have hcloser := contentEnd?_spec hend
    rw [drop_left, hm] at hcloser
    rw [hend, ← some.inj hcloser]
  · intro hend
    exact ⟨_, hend, rfl⟩

end Phrasebook
