import Mathlib.Data.List.Basic
import Phrasebook.Edit.LineComment
import Phrasebook.Message.Call

/-!
# Line comments and where they can go

A comment that is split off begins with two slashes and stays on its line. The scan for its place passes
blanks, closing brackets and semicolons, and at most one comma, which ends it.

## Main results

* `splitLineComment_slashes` — what is split off.
* `passes_of_placementFrom`, `Passes.endsLine` — where the scan ends nothing follows on the line, or a line
  end is asked for.
* `Passes.prefix_of_comment` — the scan never gets behind a comment.
-/

namespace Phrasebook

open List

variable {needsLineEnd : Bool} {c : CodePoint} {rest skipped t code comment more : Text}

/-! ## Splitting a comment off -/

lemma Text.trimRightWhile_append_cons (p : CodePoint → Bool) (s t : Text) (hc : p c = false) :
    Text.trimRightWhile p (s ++ c :: t) = s ++ c :: Text.trimRightWhile p t := by
  have hstop : List.dropWhile p (c :: s.reverse) = c :: s.reverse := by simp [hc]
  have hrev : (s ++ c :: t).reverse = t.reverse ++ c :: s.reverse := by simp
  rw [trimRightWhile, trimRightWhile, hrev, dropWhile_append, hstop]
  split_ifs with hnil
  · have hdrop : List.dropWhile p t.reverse = [] := by simpa using hnil
    simp [hdrop]
  · simp

/-- What the walk splits off is a line comment on one line. -/
lemma splitCommentFrom_slashes (before : Text) (quote : Option CodePoint) (skip : Nat) (t : Text)
    (h : splitCommentFrom before quote skip t = some (code, comment)) :
    (∃ u, comment = .scalar '/' :: .scalar '/' :: u) ∧ comment.any isLineEnd = false := by
  fun_induction splitCommentFrom before quote skip t with
  | case9 before c rest hquote hblock hslashes comment' hone =>
    obtain ⟨-, rfl⟩ := Prod.mk.inj (Option.some.inj h)
    refine ⟨?_, by simpa using hone⟩
    obtain ⟨u, hu⟩ : ([.scalar '/', .scalar '/'] : Text) <+: c :: rest := by
      simpa [Text.startsWith, Text.ofString] using hslashes
    have htrim := Text.trimRightWhile_append_cons CodePoint.isBlank [.scalar '/'] u
      (by decide : CodePoint.isBlank (.scalar '/') = false)
    refine ⟨Text.trimRightWhile CodePoint.isBlank u, Eq.trans ?_ htrim⟩
    exact congrArg Text.trimRight hu.symm
  | _ => simp_all

/-- **A comment that is split off** begins with two slashes and has no line end in it. -/
theorem splitLineComment_slashes (h : splitLineComment t = some (code, comment)) :
    (∃ u, comment = .scalar '/' :: .scalar '/' :: u) ∧ comment.any isLineEnd = false :=
  splitCommentFrom_slashes [] none 0 t h

/-! ## The scan for a place -/

/-- Nothing but blanks and tabs stands before the end of the line, or of the text. -/
def EndsLine (t : Text) : Bool := (t.dropWhile isSpaceOrTab).head?.all isLineEnd

/-- What the scan passes before it finds a place, what is left, and whether a line end has to follow
a comment there. -/
inductive Passes : Text → Text → Bool → Prop where
  | textEnd : Passes [] [] false
  | lineEnd {c : CodePoint} (rest : Text) : isLineEnd c → Passes [] (c :: rest) false
  | comma (rest : Text) : Passes [','] rest (!EndsLine rest)
  /-- It passes a blank, a tab, a closing bracket or a semicolon. -/
  | pass {c : CodePoint} {skipped rest : Text} {needsLineEnd : Bool} :
    (isSpaceOrTab c || isCloser c) → Passes skipped rest needsLineEnd →
      Passes (c :: skipped) rest needsLineEnd

/-- Whether a line end has to follow a comment behind a comma. -/
lemma any_head_dropWhile (rest : Text) :
    ((rest.dropWhile isSpaceOrTab).head?.any fun d => !isLineEnd d) = !EndsLine rest := by
  rw [EndsLine]
  cases (rest.dropWhile isSpaceOrTab).head? <;> simp

/-- **What the scan passes** up to the place that it finds. -/
theorem passes_of_placementFrom {offset position : Nat}
    (h : placementFrom offset t = some (position, needsLineEnd)) :
    offset ≤ position ∧
      Passes (t.take (position - offset)) (t.drop (position - offset)) needsLineEnd := by
  induction t generalizing offset with
  | nil =>
    obtain ⟨rfl, rfl⟩ : offset = position ∧ false = needsLineEnd := by
      simpa [placementFrom] using h
    exact ⟨Nat.le_refl _, by simpa using Passes.textEnd⟩
  | cons c rest ih =>
    simp only [placementFrom] at h
    split_ifs at h with hpass hline hcomma
    · obtain ⟨hle, hrest⟩ := ih h
      refine ⟨by omega, ?_⟩
      rw [show position - offset = position - (offset + 1) + 1 by omega]
      exact Passes.pass hpass hrest
    · obtain ⟨rfl, rfl⟩ : offset = position ∧ false = needsLineEnd := by simpa using h
      refine ⟨Nat.le_refl _, ?_⟩
      rw [Nat.sub_self]
      exact Passes.lineEnd rest hline
    · obtain ⟨rfl, rfl⟩ : offset + 1 = position ∧ (!EndsLine rest) = needsLineEnd := by
        rw [any_head_dropWhile] at h
        simpa using h
      obtain rfl : c = .scalar ',' := by simpa using hcomma
      refine ⟨by omega, ?_⟩
      rw [Nat.add_sub_cancel_left]
      exact Passes.comma rest

/-- A comment that goes where the scan begins needs no line end. -/
lemma Passes.needsLineEnd_of_nil (h : Passes [] rest needsLineEnd) : needsLineEnd = false := by
  cases h <;> rfl

/-- What the scan passes is blanks, closing brackets, semicolons and commas. -/
lemma Passes.all_passed (h : Passes skipped rest needsLineEnd) :
    skipped.all fun c => isSpaceOrTab c || isCloser c || c == .scalar ',' := by
  induction h with
  | textEnd => rfl
  | lineEnd => rfl
  | comma => simp
  | pass hc _ ih => simpa [hc] using ih

lemma endsLine_newline_append (t rest : Text) : EndsLine (t.newline ++ rest) := by
  rw [Text.newline]
  split_ifs <;> rfl

/-- **A comment where the scan ends** has nothing behind it on its line, if a line end follows it
where one has to. -/
theorem Passes.endsLine (h : Passes skipped rest needsLineEnd) (t : Text) :
    EndsLine ((if needsLineEnd then t.newline else []) ++ rest) := by
  induction h with
  | textEnd => rfl
  | @lineEnd c rest hc =>
    have hblank : isSpaceOrTab c = false := by
      rcases (by simpa [isLineEnd] using hc) with rfl | rfl <;> rfl
    simpa [EndsLine, hblank] using hc
  | comma rest =>
    cases hrest : EndsLine rest
    · exact endsLine_newline_append t rest
    · exact hrest
  | pass _ _ ih => exact ih

/-- What the scan reads begins with no slash. -/
lemma Passes.not_slash (h : Passes skipped rest needsLineEnd) :
    skipped ++ rest ≠ .scalar '/' :: more := by
  rintro heq
  cases h with
  | textEnd => simp at heq
  | lineEnd rest hc =>
    obtain rfl : _ = CodePoint.scalar '/' := (List.cons.inj heq).1
    exact absurd hc (by decide)
  | comma rest => simp at heq
  | pass hc _ =>
    obtain rfl : _ = CodePoint.scalar '/' := (List.cons.inj heq).1
    exact absurd hc (by decide)

/-- **The scan does not get into a comment**: what it passes lies before a blank and a slash. -/
theorem Passes.prefix_of_comment {front : Text} (h : Passes skipped rest needsLineEnd)
    (heq : skipped ++ rest = front ++ .scalar ' ' :: .scalar '/' :: more) : skipped <+: front := by
  induction h generalizing front with
  | textEnd => exact nil_prefix
  | lineEnd => exact nil_prefix
  | comma rest =>
    cases front with
    | nil => simp at heq
    | cons c front =>
      obtain rfl : CodePoint.scalar ',' = c := (List.cons.inj heq).1
      simp
  | pass hc hrest ih =>
    cases front with
    | nil =>
      -- the blank before the slash cannot be the last thing that is passed
      exact absurd (List.cons.inj heq).2 hrest.not_slash
    | cons d front =>
      obtain ⟨rfl, htail⟩ := List.cons.inj heq
      exact (prefix_cons_inj _).mpr (ih htail)

/-! ## Block comments -/

/-- The block comment that a line comment becomes, with the blank before it. -/
def blockForm (comment : Text) : Text := " " ++ blockComment (Text.trim (comment.drop 2))

/-- Whether a text begins with the end of a block comment. -/
lemma isPrefixOf_commentEnd (c : CodePoint) (t : Text) :
    List.isPrefixOf (Text.ofString "*/") (c :: t) ↔
      c = .scalar '*' ∧ t.head? = some (.scalar '/') := by
  cases t with
  | nil => simp [Text.ofString]
  | cons d t =>
    constructor
    · intro h
      obtain ⟨hc, hd⟩ : CodePoint.scalar '*' = c ∧ CodePoint.scalar '/' = d := by
        simpa [Text.ofString] using h
      exact ⟨hc.symm, by rw [head?_cons, hd]⟩
    · rintro ⟨rfl, hd⟩
      obtain rfl : d = .scalar '/' := by simpa using hd
      rfl

/-- The first end of a block comment is not at a character that does not begin one. -/
lemma find?_commentEnd_cons (h : ¬(c = .scalar '*' ∧ t.head? = some (.scalar '/'))) :
    Text.find? "*/" (c :: t) = (Text.find? "*/" t).map (· + 1) := by
  simp only [Text.find?, mt (isPrefixOf_commentEnd c t).mp h, Bool.false_eq_true, if_false]

lemma withoutCommentEnd_close (t : Text) :
    withoutCommentEnd ('*' :: '/' :: t) =
      .scalar '*' :: .scalar ' ' :: .scalar '/' :: withoutCommentEnd t := rfl

/-- All else stays as it is. -/
lemma withoutCommentEnd_cons (h : ¬(c = '*' ∧ t.head? = some '/')) :
    withoutCommentEnd (c :: t) = c :: withoutCommentEnd t := by
  simp only [withoutCommentEnd, Text.replaceAll, Text.replaceFrom,
    mt (isPrefixOf_commentEnd c t).mp h, Bool.false_eq_true, if_false]

/-- Taking ends of block comments apart keeps how a text begins. -/
lemma head?_withoutCommentEnd (t : Text) : (withoutCommentEnd t).head? = t.head? := by
  cases t with
  | nil => rfl
  | cons c rest =>
    by_cases h : c = '*' ∧ rest.head? = some '/'
    · obtain ⟨rfl, hhead⟩ := h
      obtain ⟨u, rfl⟩ := head?_eq_some_iff.mp hhead
      rfl
    · rw [withoutCommentEnd_cons h]
      rfl

/-- A text whose ends of block comments have been taken apart does not end the comment around it,
and neither does it together with the blank behind it. -/
lemma find?_withoutCommentEnd (rest : Text) : ∀ t : Text,
    Text.find? "*/" (withoutCommentEnd t ++ (" */" ++ rest)) =
      some ((withoutCommentEnd t).length + 1)
  | [] => rfl
  | [c] => by
    have hone : withoutCommentEnd [c] = [c] := withoutCommentEnd_cons (by simp)
    rw [hone, cons_append, find?_commentEnd_cons fun h => absurd h.2 (by simp [Text.ofString])]
    rfl
  | c :: d :: t => by
    by_cases h : c = '*' ∧ d = '/'
    · obtain ⟨rfl, rfl⟩ := h
      rw [withoutCommentEnd_close, cons_append, cons_append, cons_append,
        find?_commentEnd_cons (by simp), find?_commentEnd_cons (by simp),
        find?_commentEnd_cons (by simp), find?_withoutCommentEnd rest t]
      rfl
    · have hne : ¬(c = '*' ∧ (d :: t).head? = some '/') := by simpa using h
      have hhead : (withoutCommentEnd (d :: t) ++ (Text.ofString " */" ++ rest)).head? = some d := by
        rw [head?_append, head?_withoutCommentEnd]
        rfl
      rw [withoutCommentEnd_cons hne, cons_append,
        find?_commentEnd_cons (by rwa [hhead]), find?_withoutCommentEnd rest (d :: t)]
      rfl

/-- **A block comment ends where it was meant to**, whatever is in it and whatever follows it. -/
theorem blockCommentLength?_blockComment (t rest : Text) :
    blockCommentLength? (blockComment t ++ rest) = some (blockComment t).length := by
  have hdrop : (blockComment t ++ rest).drop 2 =
      .scalar ' ' :: (withoutCommentEnd t ++ (Text.ofString " */" ++ rest)) := by
    simp [blockComment, Text.ofString]
  have hlen : (blockComment t).length = (withoutCommentEnd t).length + 6 := by
    simp [blockComment, Text.ofString]
  have hle : 2 ≤ (blockComment t ++ rest).length := by
    rw [length_append, hlen]
    omega
  rw [blockCommentLength?, Text.findFrom?, if_pos hle, hdrop, find?_commentEnd_cons (by simp),
    find?_withoutCommentEnd, hlen]
  rfl

end Phrasebook
