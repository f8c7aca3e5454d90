import Phrasebook.Edit.Apply
import Phrasebook.Proofs.Edit.LineComment
import Phrasebook.Proofs.Message.KeyLiteral

/-!
# Message texts inside of comments

The comment behind a call holds a message text, which may be any text.

## Main results

* `isBlockComment_blockComment` — a block comment ends where it was meant to, since the mark that ends
  comments is taken apart wherever it stands in the text.
* `isLineComment_lineComment_iff` — a line comment stays on its line as far as carriage returns and line
  feeds go; the two separators of Unicode that end lines as well are left as they are.
-/

namespace Phrasebook

open List

variable {c : CodePoint} {t : Text}

/-- Whether a code point ends a line of code. -/
def breaksLine (c : CodePoint) : Bool := c == '\r' || isLineTerminator c

/-- Whether a code point is one of the separators for lines and paragraphs, `U+2028` and `U+2029`. -/
def isSeparator (c : CodePoint) : Bool := c.toNat = 0x2028 || c.toNat = 0x2029

/-- One block comment: the mark that ends comments stands at its very end and nowhere else. -/
structure IsBlockComment (t : Text) : Prop where
  marks : ∃ u, t = "/*" ++ (u ++ "*/")
  ends : ∀ u r, t = u ++ ("*/" ++ r) → r = []

/-- One line comment: no line ends in it. -/
structure IsLineComment (t : Text) : Prop where
  mark : ∃ u, t = "//" ++ u
  oneLine : ∀ c ∈ t, breaksLine c = false

/-- **Any text as a block comment.** -/
theorem isBlockComment_blockComment (t : Text) : IsBlockComment (blockComment t) := by
  refine ⟨⟨" " ++ withoutCommentEnd t ++ " ", by simp [blockComment, Text.ofString]⟩, ?_⟩
  intro u r heq
  -- the first mark is found at the end, so there is none before it
  have hfind : Text.find? "*/" (blockComment t) = some ((withoutCommentEnd t).length + 4) := by
    show Text.find? "*/" ('/' :: '*' :: ' ' ::
      (withoutCommentEnd t ++ (Text.ofString " */" ++ []))) = _
    rw [find?_commentEnd_cons (by simp), find?_commentEnd_cons (by simp),
      find?_commentEnd_cons (by simp), find?_withoutCommentEnd]
    rfl
  have hlen := congrArg List.length heq
  obtain ⟨n, hle, hfound⟩ := Text.exists_find?_le "*/" u r
  rw [← heq, hfind] at hfound
  obtain rfl := Option.some.inj hfound
  refine length_eq_zero_iff.mp ?_
  simp only [blockComment, Text.ofString, length_append, length_map] at hlen
  have hmarks : "/* ".toList.length = 3 ∧ " */".toList.length = 3 ∧ "*/".toList.length = 2 := by decide
  omega

/-- No line end stands in a line comment. -/
lemma isLineEnd_of_mem_lineComment (hc : c ∈ lineComment t) :
    isLineEnd c = false ∧ (c ∈ Text.ofString "// \\r\\n" ∨ c ∈ t) := by
  have hspelled : ∀ c ∈ Text.ofString "// \\r\\n", isLineEnd c = false := by decide
  have hpart : ∀ part ∈ ["// ", "\\r", "\\n"], Text.ofString part ⊆ Text.ofString "// \\r\\n" := by decide
  simp only [forall_mem_cons] at hpart
  rcases mem_append.mp hc with hc | hc
  · exact ⟨hspelled c (hpart.1 hc), .inl (hpart.1 hc)⟩
  rcases mem_replaceAll_point (c := '\n') hc with hc | ⟨hc, hfeed⟩
  · exact ⟨hspelled c (hpart.2.2.1 hc), .inl (hpart.2.2.1 hc)⟩
  rcases mem_replaceAll_point (c := '\r') hc with hc | ⟨hc, hreturn⟩
  · exact ⟨hspelled c (hpart.2.1 hc), .inl (hpart.2.1 hc)⟩
  · exact ⟨by simp [isLineEnd, hfeed, hreturn], .inr hc⟩

/-- What stands in a text and ends no line stands in its line comment. -/
lemma mem_lineComment (hc : c ∈ t) (hline : isLineEnd c = false) : c ∈ lineComment t := by
  obtain ⟨hreturn, hfeed⟩ : c ≠ '\r' ∧ c ≠ '\n' := by simpa [isLineEnd] using hline
  have hkept : ∀ {d : CodePoint} {new u : Text}, c ≠ d → c ∈ u → c ∈ Text.replaceAll u [d] new := by
    intro d new u hne hu
    rw [replaceAll_point]
    exact mem_flatMap.mpr ⟨c, hu, by simp [hne]⟩
  exact mem_append_right _ (hkept hfeed (hkept hreturn hc))

lemma breaksLine_eq (c : CodePoint) : breaksLine c = (isLineEnd c || isSeparator c) := by
  simp only [breaksLine, isLineTerminator, isLineEnd, isSeparator, Bool.or_assoc]

/-- **A text as a line comment** stays on its line if and only if no separator stands in it. -/
theorem isLineComment_lineComment_iff (t : Text) :
    IsLineComment (lineComment t) ↔ ∀ c ∈ t, isSeparator c = false := by
  have hspelled : ∀ c ∈ Text.ofString "// \\r\\n", isSeparator c = false := by decide
  constructor
  · intro h c hc
    cases hline : isLineEnd c with
    | true =>
      obtain rfl | rfl : c = '\r' ∨ c = '\n' := by simpa [isLineEnd] using hline
      all_goals decide
    | false =>
      have hbreaks := h.oneLine c (mem_lineComment hc hline)
      rwa [breaksLine_eq, hline, Bool.false_or] at hbreaks
  · intro h
    refine ⟨⟨" " ++ onOneLine t, rfl⟩, fun c hc => ?_⟩
    obtain ⟨hline, hmem⟩ := isLineEnd_of_mem_lineComment hc
    rw [breaksLine_eq, hline, Bool.false_or]
    exact hmem.elim (hspelled c) (h c)

/-- **What is written behind a call encloses the message text.** A block comment ends at its end, for
every text, and so does the block comment that a line comment becomes when code follows it on its line. A
line comment holds no carriage return and no line feed; it is one comment if and only if the text has no
separator for lines or paragraphs. -/
theorem Options.comment_encloses_text {o : Options} (h : o.appendComment = true) (canonical : Text)
    (blockOnly : Bool) :
    (blockOnly = true ∨ o.commentType = "block" →
      o.comment canonical blockOnly = " " ++ blockComment canonical ∧
        IsBlockComment (blockComment canonical)) ∧
    (¬ (blockOnly = true ∨ o.commentType = "block") →
      o.comment canonical blockOnly = " " ++ lineComment canonical ∧
        (∀ c ∈ lineComment canonical, isLineEnd c = false) ∧
        (IsLineComment (lineComment canonical) ↔ ∀ c ∈ canonical, isSeparator c = false)) ∧
    ∀ (t : Text) (start stop : Nat) (replacement code comment : Text),
      splitLineComment replacement = some (code, comment) → commentPlacement t stop = none →
        planSplices t start stop replacement =
            [⟨start, stop, code ++ (" " ++ blockComment (Text.trim (comment.drop 2)))⟩] ∧
          IsBlockComment (blockComment (Text.trim (comment.drop 2))) := by
  refine ⟨fun hblock => ⟨?_, isBlockComment_blockComment _⟩, fun hline => ⟨?_, ?_, ?_⟩, ?_⟩
  · simp [comment, h, hblock]
  · simp [comment, h, hline]
  · exact fun c hc => (isLineEnd_of_mem_lineComment hc).1
  · exact isLineComment_lineComment_iff canonical
  · intro t start stop replacement code comment hsplit hplace
    refine ⟨?_, isBlockComment_blockComment _⟩
    simp [planSplices, hsplit, hplace, blockComment, Text.ofString]

/-- A separator for lines gets out of a line comment, and code behind the comment turns it into a block
comment, which it cannot get out of. -/
theorem Options.comment_encloses_text_separator :
    let o : Options := { appendComment := true, commentType := "line" }
    let canonical : Text := "a\u2028alert(1)*/"
    let comment : Text := "// a\u2028alert(1)*/"
    o.appendComment = true ∧ o.comment canonical false = " " ++ comment ∧ ¬ IsLineComment comment ∧
      splitLineComment ("t()" ++ (" " ++ comment)) = some (Text.ofString "t()", comment) ∧
      commentPlacement "x + y" 1 = none ∧
      planSplices "x + y" 0 1 ("t()" ++ (" " ++ comment)) =
        [⟨0, 1, "t() /* a\u2028alert(1)* / */"⟩] ∧
      IsBlockComment "/* a\u2028alert(1)* / */" := by
  intro o canonical comment
  have hline : ¬ (false = true ∨ o.commentType = "block") := by decide
  have hsplit : splitLineComment ("t()" ++ (" " ++ comment)) = some (Text.ofString "t()", comment) := by rfl
  have hplace : commentPlacement "x + y" 1 = none := by rfl
  obtain ⟨-, hform, hplan⟩ := Options.comment_encloses_text (o := o) rfl canonical false
  obtain ⟨hcomment, -, hiff⟩ := hform hline
  obtain ⟨hsplices, hblock⟩ := hplan "x + y" 0 1 _ _ _ hsplit hplace
  exact ⟨rfl, hcomment, fun h => absurd (hiff.mp h) (by decide), hsplit, hplace, hsplices, hblock⟩

end Phrasebook
