import Phrasebook.Proofs.Component.Scan
import Phrasebook.Proofs.Edit.LineComment

/-!
# Code that ends outside of strings and comments

The splitter of line comments reads code without its grammar: it knows strings in three kinds of quotes and
the two kinds of comments, and nothing else. It gets through code if that is a sequence of closed strings,
closed block comments and characters that begin neither.

## Main results

* `closed_string_iff`, `closed_append_unmarked_iff` — when code is of this form.
* `splitLineComment_append_iff` — a line comment behind code is split off if and only if the code is so.
-/

namespace Phrasebook

open List Option Text

variable {c q : CodePoint} {body code comment t u v before r w : Text} {n skip : Nat}
  {quote : Option CodePoint}

/-! ## Closed code -/

/-- Whether a character is one of the three quotes. -/
def isStringMark (c : CodePoint) : Bool := c.isOneOf "'\"`"

/-- What can stand between two quotes: the quote itself and the backslash only behind a backslash. -/
inductive StringBody (q : CodePoint) : Text → Prop where
  | nil : StringBody q []
  | plain {c : CodePoint} {rest : Text} (hquote : c ≠ q) (hslash : c ≠ '\\') (hrest : StringBody q rest) :
    StringBody q (c :: rest)
  /-- A backslash, and whatever stands behind it. -/
  | escape (c : CodePoint) {rest : Text} (hrest : StringBody q rest) : StringBody q ('\\' :: c :: rest)

/-- Code that is a sequence of closed strings, closed block comments and characters that begin neither. -/
inductive Closed : Text → Prop where
  | nil : Closed []
  /-- A character that begins no string and no comment. -/
  | plain {c : CodePoint} {rest : Text} (hmark : isStringMark c = false)
      (hline : ¬ Text.ofString "//" <+: c :: rest) (hblock : ¬ Text.ofString "/*" <+: c :: rest)
      (hrest : Closed rest) : Closed (c :: rest)
  | string {q : CodePoint} {body rest : Text} (hmark : isStringMark q = true) (hbody : StringBody q body)
      (hrest : Closed rest) : Closed (q :: (body ++ q :: rest))
  /-- A block comment, which ends with the first end of one. -/
  | comment {body rest : Text} (hbody : Text.find? "*/" (body ++ "*/") = some body.length)
      (hrest : Closed rest) : Closed ("/*" ++ (body ++ ("*/" ++ rest)))

/-- Code without quotes and slashes. -/
def Unmarked (t : Text) : Prop := ∀ c ∈ t, isStringMark c = false ∧ c ≠ '/'

instance (t : Text) : Decidable (Unmarked t) :=
  inferInstanceAs (Decidable (∀ c ∈ t, isStringMark c = false ∧ c ≠ '/'))

/-- A text that cannot go on with the beginning of a comment. -/
def StartsApart (v : Text) : Prop := ∀ c ∈ v.head?, c ∉ Text.ofString "/*"

namespace StartsApart

variable {v : Text}

lemma block_iff (h : StartsApart v) : Text.ofString "/*" <+: u ++ v ↔ Text.ofString "/*" <+: u :=
  prefix_append_iff h

lemma line_iff (h : StartsApart v) : Text.ofString "//" <+: u ++ v ↔ Text.ofString "//" <+: u :=
  prefix_append_iff fun c hc hmem =>
    h c hc ((by decide : Text.ofString "//" ⊆ Text.ofString "/*") hmem)

lemma cons (hc : c ∉ Text.ofString "/*") (t : Text) : StartsApart (c :: t) := by
  intro d hd
  rwa [← some.inj hd]

end StartsApart

lemma not_prefix_of_ne_slash {d : CodePoint} (hc : c ≠ '/') :
    ¬ [CodePoint.scalar '/', d] <+: c :: t := by
  rintro ⟨r, hr⟩
  exact hc (List.cons.inj hr).1.symm

lemma ne_backslash_of_isStringMark (hq : isStringMark q) : q ≠ '\\' := by
  rintro rfl
  exact absurd hq (by decide)

/-! ## Block comments -/

lemma blockCommentLength?_of_find? (hbody : Text.find? "*/" (body ++ "*/") = some body.length) (r : Text) :
    blockCommentLength? ("/*" ++ (body ++ ("*/" ++ r))) = some (body.length + 4) := by
  have hdrop : ("/*" ++ (body ++ ("*/" ++ r)) : Text).drop 2 = body ++ "*/" ++ r := by
    rw [append_assoc]
    rfl
  rw [blockCommentLength?, Text.findFrom?, if_pos (by simp [Text.ofString]), hdrop, find?_append hbody]
  rfl

/-- A block comment that is closed. -/
lemma exists_of_blockCommentLength? (hstart : Text.ofString "/*" <+: t)
    (h : blockCommentLength? t = some n) :
    ∃ body r, t = "/*" ++ (body ++ ("*/" ++ r)) ∧ Text.find? "*/" (body ++ "*/") = some body.length ∧
      n = body.length + 4 := by
  obtain ⟨rest, rfl⟩ := hstart
  rw [blockCommentLength?, Text.findFrom?, if_pos (by simp [Text.ofString])] at h
  obtain ⟨k, hk, rfl⟩ := map_eq_some_iff.mp h
  obtain ⟨m, hm, rfl⟩ := map_eq_some_iff.mp hk
  have hm : Text.find? "*/" rest = some m := hm
  obtain ⟨body, r, rfl, rfl⟩ := exists_of_find? hm
  refine ⟨body, r, rfl, ?_, rfl⟩
  have htake := find?_take hm (m := (body ++ "*/" : Text).length) (by simp [Text.ofString])
  rwa [← append_assoc, take_left] at htake

/-- A string ends in one place only. -/
lemma StringBody.eq_of_append (hq : q ≠ '\\') {body' r' : Text} (h : StringBody q body)
    (h' : StringBody q body') (heq : body ++ q :: r = body' ++ q :: r') : r = r' := by
  induction h generalizing body' with
  | nil =>
    cases h' with
    | nil => exact (List.cons.inj heq).2
    | plain hquote _ _ => exact absurd (List.cons.inj heq).1.symm hquote
    | escape _ _ => exact absurd (List.cons.inj heq).1 hq
  | plain hquote hslash _ ih =>
    cases h' with
    | nil => exact absurd (List.cons.inj heq).1 hquote
    | plain _ _ hrest => exact ih hrest (List.cons.inj heq).2
    | escape _ _ => exact absurd (List.cons.inj heq).1 hslash
  | escape c _ ih =>
    cases h' with
    | nil => exact absurd (List.cons.inj heq).1.symm hq
    | plain _ hslash _ => exact absurd (List.cons.inj heq).1.symm hslash
    | escape _ hrest => exact ih hrest (List.cons.inj (List.cons.inj heq).2).2

/-! ## Parts of closed code -/

/-- A character that does not stand in the end of a text stands before it. -/
lemma exists_of_append_eq {a : Text} (hc : c ∉ v) (h : u ++ v = a ++ c :: r) :
    ∃ r', u = a ++ c :: r' ∧ r' ++ v = r := by
  rcases append_eq_append_iff.mp h with ⟨b, -, rfl⟩ | ⟨b, rfl, hb⟩
  · exact absurd (mem_append_right b mem_cons_self) hc
  · cases b with
    | nil =>
      rw [nil_append] at hb
      exact absurd (hb ▸ mem_cons_self) hc
    | cons d b =>
      obtain ⟨rfl, rfl⟩ := List.cons.inj hb
      exact ⟨b, rfl, rfl⟩

namespace Closed

variable {u v : Text}

lemma cons (hmark : isStringMark c = false) (hslash : c ≠ '/') (h : Closed v) : Closed (c :: v) :=
  .plain hmark (not_prefix_of_ne_slash hslash) (not_prefix_of_ne_slash hslash) h

/-- Closed texts can be put together where no comment arises. -/
lemma append (hu : Closed u) (hv : Closed v) (hapart : StartsApart v) : Closed (u ++ v) := by
  induction hu with
  | nil => exact hv
  | plain hmark hline hblock _ ih =>
    rw [← hapart.line_iff] at hline
    rw [← hapart.block_iff] at hblock
    exact .plain hmark hline hblock ih
  | string hmark hbody _ ih =>
    rw [cons_append, append_assoc]
    exact .string hmark hbody ih
  | comment hbody _ ih =>
    rw [append_assoc, append_assoc, append_assoc]
    exact .comment hbody ih

/-- What has no quote and no slash can be left out at the end. -/
lemma of_append_right (hv : Unmarked v) (h : Closed (u ++ v)) : Closed u := by
  generalize hw : u ++ v = w at h
  induction h generalizing u with
  | nil =>
    rw [(append_eq_nil_iff.mp hw).1]
    exact .nil
  | @plain c rest hmark hline hblock _ ih =>
    cases u with
    | nil => exact .nil
    | cons d u =>
      obtain ⟨rfl, htail⟩ := List.cons.inj hw
      subst htail
      refine .plain hmark (mt (fun hp => ?_) hline) (mt (fun hp => ?_) hblock) (ih rfl)
      · exact hp.trans (prefix_append (d :: u) v)
      · exact hp.trans (prefix_append (d :: u) v)
  | @string q body rest hmark hbody _ ih =>
    -- the last quote of the string does not lie in `v`
    have hq : q ∉ v := fun hmem => by simp [(hv q hmem).1] at hmark
    have hsplit : u ++ v = (q :: body) ++ q :: rest := hw
    obtain ⟨r, rfl, hr⟩ := exists_of_append_eq hq hsplit
    exact .string hmark hbody (ih hr)
  | @comment body rest hbody _ ih =>
    -- neither does the last slash of the comment
    have hslash : .scalar '/' ∉ v := fun hmem => (hv _ hmem).2 rfl
    have hsplit : u ++ v = ("/*" ++ (body ++ "*")) ++ .scalar '/' :: rest := by
      rw [hw]
      simp [Text.ofString]
    obtain ⟨r, rfl, hr⟩ := exists_of_append_eq hslash hsplit
    have hu : "/*" ++ (body ++ "*") ++ .scalar '/' :: r = "/*" ++ (body ++ ("*/" ++ r)) := by
      simp [Text.ofString]
    rw [hu]
    exact .comment hbody (ih hr)

end Closed

/-- **Code without quotes and slashes in front** does not matter. -/
theorem Unmarked.closed_append_iff (hu : Unmarked u) : Closed (u ++ v) ↔ Closed v := by
  induction u with
  | nil => exact Iff.rfl
  | cons c u ih =>
    obtain ⟨⟨hmark, hslash⟩, hrest⟩ := forall_mem_cons.mp hu
    refine Iff.trans ⟨fun h => ?_, .cons hmark hslash⟩ (ih hrest)
    generalize hw : c :: u ++ v = w at h
    cases h with
    | nil => simp at hw
    | plain _ _ _ h => exact (List.cons.inj hw).2 ▸ h
    | string hmark' _ _ =>
      rw [(List.cons.inj hw).1, hmark'] at hmark
      cases hmark
    | comment _ _ => exact absurd (List.cons.inj hw).1 hslash

/-- A text without quotes and slashes is closed. -/
lemma Unmarked.closed (h : Unmarked t) : Closed t :=
  append_nil t ▸ h.closed_append_iff.mpr .nil

/-- **A string in front** does not matter. -/
theorem closed_string_iff (hmark : isStringMark q) (hbody : StringBody q body) :
    Closed (q :: (body ++ q :: v)) ↔ Closed v := by
  refine ⟨fun h => ?_, .string hmark hbody⟩
  generalize hw : q :: (body ++ q :: v) = w at h
  cases h with
  | nil => cases hw
  | plain hmark' _ _ _ =>
    rw [← (List.cons.inj hw).1, hmark] at hmark'
    cases hmark'
  | @string q' body' v' _ hbody' h =>
    obtain ⟨rfl, htail⟩ := List.cons.inj hw
    rwa [hbody.eq_of_append (ne_backslash_of_isStringMark hmark) hbody' htail]
  | comment _ _ =>
    rw [(List.cons.inj hw).1] at hmark
    exact absurd hmark (by decide)

/-- **Code without quotes and slashes behind** does not matter. -/
theorem closed_append_unmarked_iff (hv : Unmarked v) (hapart : StartsApart v) : Closed (u ++ v) ↔ Closed u :=
  ⟨.of_append_right hv, fun hu => hu.append hv.closed hapart⟩

/-! ## The splitter on closed code -/

section Steps

variable {before : Text}

lemma splitCommentFrom_skip (quote : Option CodePoint) (u v : Text) :
    splitCommentFrom before quote u.length (u ++ v) = splitCommentFrom (u.reverse ++ before) quote 0 v := by
  induction u generalizing before with
  | nil => rfl
  | cons c u ih =>
    rw [length_cons, cons_append, splitCommentFrom, ih, reverse_cons, append_assoc]
    rfl

lemma splitCommentFrom_plain (hmark : isStringMark c = false) (hline : ¬ Text.ofString "//" <+: c :: t)
    (hblock : ¬ Text.ofString "/*" <+: c :: t) :
    splitCommentFrom before none 0 (c :: t) = splitCommentFrom (c :: before) none 0 t := by
  rw [isStringMark] at hmark
  rw [splitCommentFrom, hmark, if_neg (by simp), if_neg (by rwa [Text.startsWith, isPrefixOf_iff_prefix]),
    if_neg (by rwa [Text.startsWith, isPrefixOf_iff_prefix])]

/-- Inside of a string the splitter goes on to the closing quote. -/
lemma splitCommentFrom_stringBody (h : StringBody q body) (t : Text) :
    splitCommentFrom before (some q) 0 (body ++ t) =
      splitCommentFrom (body.reverse ++ before) (some q) 0 t := by
  induction h generalizing before with
  | nil => rfl
  | @plain c rest hquote hslash _ ih =>
    rw [cons_append, splitCommentFrom, if_neg (by simpa using hslash), if_neg (by simpa using hquote), ih,
      reverse_cons, append_assoc]
    rfl
  | @escape c rest _ ih =>
    rw [cons_append, splitCommentFrom, if_pos (by simp), cons_append, splitCommentFrom, ih,
      reverse_cons, reverse_cons, append_assoc, append_assoc]
    rfl

lemma splitCommentFrom_string (hmark : isStringMark q) (hbody : StringBody q body) (t : Text) :
    splitCommentFrom before none 0 (q :: (body ++ q :: t)) =
      splitCommentFrom ((q :: (body ++ [q])).reverse ++ before) none 0 t := by
  have hslash := ne_backslash_of_isStringMark hmark
  rw [isStringMark] at hmark
  rw [splitCommentFrom, if_pos hmark, splitCommentFrom_stringBody hbody, splitCommentFrom,
    if_neg (by simpa using hslash), if_pos (by simp)]
  simp

lemma splitCommentFrom_blockComment (hbody : Text.find? "*/" (body ++ "*/") = some body.length) (t : Text) :
    splitCommentFrom before none 0 ("/*" ++ (body ++ ("*/" ++ t))) =
      splitCommentFrom (("/*" ++ (body ++ "*/") : Text).reverse ++ before) none 0 t := by
  -- the slash is read, and the rest of the comment is skipped
  have hstep : splitCommentFrom before none 0 ("/*" ++ (body ++ ("*/" ++ t))) =
      splitCommentFrom ('/' :: before) none (body.length + 3) ("*" ++ (body ++ "*/") ++ t) := by
    rw [append_assoc, append_assoc]
    show splitCommentFrom before none 0 ('/' :: ("*" ++ (body ++ ("*/" ++ t)))) = _
    rw [splitCommentFrom, if_neg (by decide), if_pos (by simp [Text.startsWith, Text.ofString])]
    have hlength : blockCommentLength? ('/' :: ("*" ++ (body ++ ("*/" ++ t)))) = some _ :=
      blockCommentLength?_of_find? hbody t
    rw [hlength]
    rfl
  have hlength : body.length + 3 = ("*" ++ (body ++ "*/") : Text).length := by
    simp [Text.ofString]
  rw [hstep, hlength, splitCommentFrom_skip]
  simp [Text.ofString]

/-- **The splitter gets through closed code.** -/
theorem Closed.splitCommentFrom_append (hu : Closed u) (hapart : StartsApart v) :
    splitCommentFrom before none 0 (u ++ v) = splitCommentFrom (u.reverse ++ before) none 0 v := by
  induction hu generalizing before with
  | nil => rfl
  | plain hmark hline hblock _ ih =>
    rw [← hapart.line_iff, cons_append] at hline
    rw [← hapart.block_iff, cons_append] at hblock
    rw [cons_append, splitCommentFrom_plain hmark hline hblock, ih, reverse_cons, append_assoc]
    rfl
  | @string q body rest hmark hbody _ ih =>
    rw [cons_append, append_assoc, cons_append, splitCommentFrom_string hmark hbody, ih]
    simp
  | comment hbody _ ih =>
    rw [append_assoc, append_assoc, append_assoc, splitCommentFrom_blockComment hbody, ih]
    simp

/-- A line comment that the splitter gets to. -/
lemma splitCommentFrom_line (hstart : Text.ofString "//" <+: comment)
    (hline : ∀ c ∈ comment, isLineEnd c = false) :
    splitCommentFrom before none 0 comment =
      some (Text.trimRightWhile isSpaceOrTab before.reverse, comment.trimRight) := by
  have hany : ¬ comment.trimRight.any isLineEnd := by
    intro hany
    obtain ⟨c, hc, hend⟩ := any_eq_true.mp hany
    rw [hline c (trimRightWhile_subset _ _ hc)] at hend
    cases hend
  obtain ⟨r, rfl⟩ := hstart
  show splitCommentFrom before none 0 ('/' :: '/' :: r) = _
  rw [splitCommentFrom, if_neg (by decide), if_neg (by simp [Text.startsWith, Text.ofString]),
    if_pos (by simp [Text.startsWith, Text.ofString])]
  exact if_neg hany

end Steps

/-! ## What the splitter has got through -/

/-- Code that is closed behind the beginning of which it is known whether it lies in a string. -/
def ClosesFrom : Option CodePoint → Text → Prop
  | none, u => Closed u
  | some q, u => ∃ body rest, u = body ++ q :: rest ∧ StringBody q body ∧ Closed rest

/-- The code before a comment is what came before the walk and a beginning of what is left, which is closed
behind what is skipped. -/
def SplitsClosed (before : Text) (quote : Option CodePoint) (skip : Nat) (w code : Text) : Prop :=
  ∃ u, u <+: w ∧ code = Text.trimRightWhile isSpaceOrTab (before.reverse ++ u) ∧ skip ≤ u.length ∧
    ClosesFrom quote (u.drop skip)

lemma SplitsClosed.cons {quote' : Option CodePoint}
    {skip' : Nat} (h : SplitsClosed (c :: before) quote' skip' w code)
    (hstep : ∀ u, u <+: w → skip' ≤ u.length → ClosesFrom quote' (u.drop skip') →
      skip ≤ u.length + 1 ∧ ClosesFrom quote ((c :: u).drop skip)) :
    SplitsClosed before quote skip (c :: w) code := by
  obtain ⟨u, hu, hcode, hle, hclosed⟩ := h
  refine ⟨c :: u, (prefix_cons_inj c).mpr hu, ?_, hstep u hu hle hclosed⟩
  rw [hcode, reverse_cons, append_assoc]
  rfl

/-- A block comment in front of closed code, by what is left of it behind its slash. -/
lemma closed_of_blockCommentLength? (hstart : Text.ofString "/*" <+: c :: w)
    (hn : blockCommentLength? (c :: w) = some n) (hu : u <+: w) (hle : n - 1 ≤ u.length)
    (h : Closed (u.drop (n - 1))) : Closed (c :: u) := by
  obtain ⟨body, r, hw, hbody, rfl⟩ := exists_of_blockCommentLength? hstart hn
  have hlength : ("/*" ++ (body ++ "*/") : Text).length = body.length + 4 := by simp [Text.ofString]
  have hcomment : ("/*" ++ (body ++ "*/") : Text) <+: c :: w := ⟨r, by simp [hw]⟩
  -- the comment lies before the place that the walk has got to
  obtain ⟨rest, hrest⟩ := prefix_of_prefix_length_le hcomment ((prefix_cons_inj c).mpr hu)
    (by rw [hlength, length_cons]; omega)
  have hdrop : u.drop (body.length + 3) = rest := by
    have := congrArg (List.drop (body.length + 4)) hrest
    rwa [← hlength, drop_left, hlength, drop_succ_cons, eq_comm] at this
  rw [← hrest, append_assoc, append_assoc]
  exact .comment hbody (hdrop ▸ h)

/-- What a comment is split off from is closed. The proof follows the walk. -/
lemma splitsClosed_of_splitCommentFrom (h : splitCommentFrom before quote skip w = some (code, comment)) :
    SplitsClosed before quote skip w code := by
  induction w generalizing before quote skip with
  | nil => cases h
  | cons c w ih =>
    cases skip with
    | succ skip =>
      rw [splitCommentFrom] at h
      exact (ih h).cons fun u _ hle hclosed => ⟨Nat.succ_le_succ hle, hclosed⟩
    | zero =>
      cases quote with
      | some q =>
        simp only [splitCommentFrom] at h
        split_ifs at h with hslash hquote
        · obtain rfl := eq_of_beq hslash
          refine (ih h).cons fun u _ hle hclosed => ⟨Nat.zero_le _, ?_⟩
          obtain ⟨d, u, rfl⟩ := exists_cons_of_length_pos hle
          obtain ⟨body, rest, hu, hbody, hrest⟩ := hclosed
          exact ⟨_ :: d :: body, rest, congrArg (_ :: d :: ·) hu, .escape d hbody, hrest⟩
        · obtain rfl := eq_of_beq hquote
          exact (ih h).cons fun u _ _ hclosed => ⟨Nat.zero_le _, [], u, rfl, .nil, hclosed⟩
        · refine (ih h).cons fun u _ _ hclosed => ⟨Nat.zero_le _, ?_⟩
          obtain ⟨body, rest, hu, hbody, hrest⟩ := hclosed
          exact ⟨c :: body, rest, congrArg (c :: ·) hu,
            .plain (by simpa using hquote) (by simpa using hslash) hbody, hrest⟩
      | none =>
        simp only [splitCommentFrom] at h
        split_ifs at h with hmark hblock hline hend
        · refine (ih h).cons fun u _ _ hclosed => ⟨Nat.zero_le _, ?_⟩
          obtain ⟨body, rest, rfl, hbody, hrest⟩ := hclosed
          exact .string hmark hbody hrest
        · rw [Text.startsWith, isPrefixOf_iff_prefix] at hblock
          split at h
          · cases h
          · rename_i length hlength
            exact (ih h).cons fun u hu hle hclosed =>
              ⟨Nat.zero_le _, closed_of_blockCommentLength? hblock hlength hu hle hclosed⟩
        · obtain ⟨rfl, -⟩ := Prod.mk.inj (some.inj h)
          exact ⟨[], nil_prefix, by rw [append_nil], Nat.zero_le _, .nil⟩
        · rw [Text.startsWith, isPrefixOf_iff_prefix] at hblock hline
          refine (ih h).cons fun u hu _ hclosed => ⟨Nat.zero_le _, ?_⟩
          have hpre := (prefix_cons_inj c).mpr hu
          exact .plain (by simpa [isStringMark] using hmark) (fun hp => hline (hp.trans hpre))
            (fun hp => hblock (hp.trans hpre)) hclosed

/-- **Code that a line comment is split off from is closed.** -/
theorem closed_of_splitLineComment (h : splitLineComment t = some (code, comment)) : Closed code := by
  obtain ⟨u, -, rfl, -, hclosed⟩ := splitsClosed_of_splitCommentFrom h
  obtain ⟨blanks, hblanks, hu⟩ := exists_trimRightWhile isSpaceOrTab u
  have hclosed : Closed (Text.trimRightWhile isSpaceOrTab u ++ blanks) := by rwa [hu]
  refine Closed.of_append_right (fun c hc => ?_) hclosed
  rcases (by simpa [isSpaceOrTab] using hblanks c hc) with rfl | rfl <;> decide

/-- **A line comment behind code is split off** if and only if the code is closed. -/
theorem splitLineComment_append_iff (htrim : code.trimRightWhile isSpaceOrTab = code)
    (hstart : Text.ofString "//" <+: comment) (hline : ∀ c ∈ comment, isLineEnd c = false) :
    splitLineComment (code ++ .scalar ' ' :: comment) = some (code, comment.trimRight) ↔ Closed code := by
  refine ⟨closed_of_splitLineComment, fun h => ?_⟩
  have hapart : StartsApart (' ' :: comment) := .cons (by decide) comment
  have hblank : Text.trimRightWhile isSpaceOrTab (code ++ [.scalar ' ']) = code := by
    simpa [Text.trimRightWhile, isSpaceOrTab] using htrim
  rw [splitLineComment, h.splitCommentFrom_append hapart, splitCommentFrom_plain (by decide)
    (not_prefix_of_ne_slash (by decide)) (not_prefix_of_ne_slash (by decide)), splitCommentFrom_line hstart hline]
  simp [hblank]

end Phrasebook
