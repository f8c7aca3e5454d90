import Phrasebook.Component.Template
import Phrasebook.Proofs.Component.Markup
import Phrasebook.Proofs.Literal.InTemplate

/-!
# What is kept beside phrases

A literal that is more than one phrase becomes a template literal: what stands between the phrases is kept,
and each phrase gives way to a call. The phrases were cut out of a text in which a character may be spelled
in many ways, and what is kept moves into a literal with another syntax.

## Main results

* `isSegmentFor_spelled`, `isSegmentFor_plain` — a part that is kept stands for what it did.
* `partial_replacement_keeps_text` — so does all that is kept beside the phrases of a literal.
-/

namespace Phrasebook

open List

variable {resolved : List (Phrase × Key)} {raw : Text} {decoded : Decoded}

/-- **No escape `\0` stands directly before a digit.** Such an escape stands for the letter, but if the digit
is cut off it stands for the null character. -/
def ZerosApart (raw : Text) : Prop :=
  ∀ i < raw.length, [.scalar '\\', .scalar '0'] <+: raw.drop i →
    endingBackslashes (raw.take i) % 2 = 0 → (raw.drop (i + 2)).head?.any CodePoint.isDigit = false

instance (raw : Text) : Decidable (ZerosApart raw) :=
  inferInstanceAs (Decidable (∀ i < raw.length, _ → _ → _ = _))

/-- Then no spelling depends on a digit behind it. -/
lemma ZerosApart.ne_of_mem {us : Spellings} (hzero : ZerosApart us.text) (h : us.Reads) :
    ∀ u ∈ us, u ≠ ([.scalar '\\', .scalar '0'], .point (.scalar '0')) := by
  rintro u hu rfl
  obtain ⟨before, after, rfl⟩ := append_of_mem hu
  have hbefore : endingBackslashes (Spellings.text before) % 2 = 0 :=
    h.endingBackslashes_mod_two (by rw [Spellings.text_cons]; exact cons_ne_nil _ _)
  -- it could only be an escape that means nothing, with a digit behind it
  have hdigit : (Spellings.text after).head?.any CodePoint.isDigit := by
    cases h.append_right with
    | cons hspells _ =>
      cases hspells with
      | simple he => exact absurd he (by decide)
      | other _ _ _ _ _ hdigit => exact hdigit rfl
  have hnone := hzero (Spellings.text before).length
  rw [Spellings.text_append, Spellings.text_cons, drop_left, take_left,
    drop_length_add_append] at hnone
  have hlast : (Spellings.text after).head?.any CodePoint.isDigit = false :=
    hnone (by simp) (prefix_append _ _) hbefore
  rw [hdigit] at hlast
  cases hlast

/-- **What is kept for a part of a literal**: it is decoded to the characters of that part, and it neither
ends the template literal nor opens a substitution. If the inside `raw` of the old literal does not end in
an escape, what is kept does not either, so that what is written behind it is not escaped. -/
structure IsSegmentFor (raw value segment : Text) : Prop where
  decoded : (decodeLiteral segment).map Decoded.text = .ok value
  safe : IsTemplateText segment
  closed : endingBackslashes raw % 2 = 0 → endingBackslashes segment % 2 = 0

/-- **What is kept of a quoted string** between two decoded characters.

**Proof sketch.** The string is read as spellings, and so is what is spelled between two of its decoded
characters; this part stands for the characters between them. Escaping goes from spelling to spelling and
changes nothing of what they stand for. -/
theorem isSegmentFor_spelled (hdecoded : decodeLiteral raw = .ok decoded)
    (hzero : ZerosApart raw) {i j : Nat} (hij : i ≤ j) (hj : j ≤ decoded.length) :
    IsSegmentFor raw (decoded.text.slice i j) (escapeSpelled (spelledSegment raw decoded i j)) := by
  obtain ⟨us, hus, rfl⟩ := Spellings.exists_reads raw
  have hrun : Spellings.run 0 [] us = .ok decoded.reverse := by
    rw [decodeLiteral, Spellings.decodeFrom_text hus] at hdecoded
    cases hrun : Spellings.run 0 [] us with
    | error e =>
      rw [hrun] at hdecoded
      cases hdecoded
    | ok done =>
      rw [hrun] at hdecoded
      rw [← Except.ok.inj hdecoded, reverse_reverse]
  obtain ⟨before, between, after, rfl, hstart, hstop, hvalue⟩ := Spellings.exists_between hrun hij hj
  have hsegment : spelledSegment (Spellings.text (before ++ (between ++ after))) decoded i j =
      Spellings.text between := by
    rw [spelledSegment, hstart, hstop]
    refine Text.slice_of_eq (r := Spellings.text after) ?_ rfl ?_
    · rw [Spellings.text_append, Spellings.text_append]
    · rw [Spellings.text_append, length_append]
  have hzeros : ∀ u ∈ between, u ≠ ([.scalar '\\', .scalar '0'], .point (.scalar '0')) := fun u hu =>
    hzero.ne_of_mem hus u (mem_append_right _ (mem_append_left _ hu))
  have hbetween : Spellings.Reads between := hus.append_right.append_left hzeros
  rw [hsegment]
  refine ⟨?_, isTemplateText_escapeSpelled _, fun hclosed => ?_⟩
  · rw [map_text_decodeLiteral_escapeSpelled hbetween, hvalue]
  · rw [endingBackslashes_escapeSpelled, hus.endingBackslashes_between hclosed]

/-- **What is kept of an attribute**, which knows no escapes. -/
theorem isSegmentFor_plain (raw value : Text) : IsSegmentFor raw value (escapePlain value) :=
  ⟨map_text_decodeLiteral_escapePlain value, isTemplateText_escapePlain value,
    fun _ => endingBackslashes_escapePlain value⟩

/-- **Parts that are kept, with calls between them**: from an offset of the value on, what is kept up to the
next phrase, a substitution with its call, and so on to the end. -/
inductive IsTemplateFor (raw value : Text) (call : Phrase → Key → Text) :
    Nat → List (Phrase × Key) → Text → Prop where
  | last {cursor : Nat} {segment : Text}
      (h : IsSegmentFor raw (value.slice cursor value.length) segment) :
    IsTemplateFor raw value call cursor [] segment
  | call {cursor : Nat} {p : Phrase} {key : Key} {resolved : List (Phrase × Key)} {segment rest : Text}
      (h : IsSegmentFor raw (value.slice cursor p.start) segment)
      (hrest : IsTemplateFor raw value call p.stop resolved rest) :
    IsTemplateFor raw value call cursor ((p, key) :: resolved)
      (segment ++ substitution (call p key) ++ rest)

/-- The span of a phrase that has got a key. -/
def resolvedSpan (x : Phrase × Key) : Nat × Nat := (x.1.start, x.1.stop)

/-- **Parts and calls alternate**, by induction on the phrases. -/
theorem isTemplateFor_interpolate {value : Text} {segment : Nat → Nat → Text}
    (hsegment : ∀ i j, i ≤ j → j ≤ value.length → IsSegmentFor raw (value.slice i j) (segment i j))
    (call : Phrase → Key → Text) {cursor : Nat} (h : Follow resolvedSpan value.length cursor resolved) :
    IsTemplateFor raw value call cursor resolved
      (interpolate segment (fun p key => substitution (call p key)) value.length cursor resolved) := by
  induction resolved generalizing cursor with
  | nil => exact .last (hsegment cursor value.length h (le_refl _))
  | cons x resolved ih =>
    obtain ⟨hstart, hstop, hrest⟩ := h
    have hle : x.1.start ≤ value.length := le_trans hstop hrest.cursor_le
    exact .call (hsegment cursor x.1.start hstart hle) (ih hrest)

/-- A template literal that takes the place of a string literal. -/
lemma exists_spelledTemplate (hdecoded : decodeLiteral raw = .ok decoded)
    (hzero : ZerosApart raw) (call : Phrase → Key → Text) (h : Follow resolvedSpan decoded.length 0 resolved) :
    ∃ out, spelledTemplate raw decoded (fun p key => substitution (call p key)) resolved = backticked out ∧
      IsTemplateFor raw decoded.text call 0 resolved out := by
  have hlength : decoded.text.length = decoded.length := length_map _
  rw [← hlength] at h
  have hsegment : ∀ i j, i ≤ j → j ≤ decoded.text.length →
      IsSegmentFor raw (decoded.text.slice i j) (escapeSpelled (spelledSegment raw decoded i j)) :=
    fun i j hij hj => isSegmentFor_spelled hdecoded hzero hij (hlength ▸ hj)
  exact ⟨_, by rw [spelledTemplate, ← hlength], isTemplateFor_interpolate hsegment call h⟩

lemma exists_plainTemplate (call : Phrase → Key → Text) (h : Follow resolvedSpan raw.length 0 resolved) :
    ∃ out, plainTemplate raw (fun p key => substitution (call p key)) resolved = backticked out ∧
      IsTemplateFor raw raw call 0 resolved out :=
  ⟨_, rfl, isTemplateFor_interpolate (fun i j _ _ => isSegmentFor_plain raw (raw.slice i j)) call h⟩

namespace TemplateBlock

variable (b : TemplateBlock) (quote : Option QuoteMark) {raw : Text} {decoded : Decoded}
  {phrases : List Phrase} {resolved : List (Phrase × Key)}

/-- A quoted string of a component's template that is not one phrase. -/
lemma callOrTemplate_quoted (h : ¬ ((Literal.quoted raw decoded).isFilledBy phrases ∧ resolved.length = 1)) :
    b.callOrTemplate quote (.quoted raw decoded) phrases resolved =
      spelledTemplate raw decoded (b.embedded quote) resolved := by
  rw [callOrTemplate.eq_def]
  split
  · rename_i hfilled
    exact absurd ⟨hfilled, rfl⟩ h
  · rename_i heq _
    obtain ⟨rfl, rfl⟩ := Literal.quoted.inj heq
    rfl
  · rename_i hquoted
    exact absurd rfl (hquoted raw decoded)

/-- An attribute of a component's template that is not one phrase. -/
lemma callOrTemplate_value (h : ¬ ((Literal.value raw).isFilledBy phrases ∧ resolved.length = 1)) :
    b.callOrTemplate quote (.value raw) phrases resolved =
      plainTemplate raw (b.embedded quote) resolved := by
  rw [callOrTemplate.eq_def]
  split
  · rename_i hfilled
    exact absurd ⟨hfilled, rfl⟩ h
  · rename_i heq _
    cases heq
  · rfl

end TemplateBlock

/-- **What is kept beside phrases keeps its value.** Take a quoted string in which no `\0` stands before a
digit, and phrases that follow each other in its decoded text; or an attribute, and phrases in its text. If
they are not one phrase that is all of it, what takes its place is a template literal in which parts that are
kept alternate with the calls, in a script as in the template of a component. Each part is decoded to the
characters between the phrases, and in none of them a backtick or the opening of a substitution is left that
is not escaped. -/
theorem partial_replacement_keeps_text (o : Options) (callName : Text) (c : Cursor) (b : TemplateBlock)
    (quote : Option QuoteMark) (phrases : List Phrase) (resolved : List (Phrase × Key)) (raw : Text) :
    (∀ decoded, decodeLiteral raw = .ok decoded → ZerosApart raw →
      Follow resolvedSpan decoded.length 0 resolved →
      (∃ out, (Site.mk c (.quoted raw decoded) resolved false).replacement o callName =
          .fixed (backticked out) ∧
        IsTemplateFor raw decoded.text (fun p key => o.lookup callName key p.payload [] true) 0 resolved out) ∧
      (¬ ((Literal.quoted raw decoded).isFilledBy phrases = true ∧ resolved.length = 1) →
        ∃ out, b.callOrTemplate quote (.quoted raw decoded) phrases resolved = backticked out ∧
          IsTemplateFor raw decoded.text (fun p key => b.lookup quote key p.payload []) 0 resolved out)) ∧
    (Follow resolvedSpan raw.length 0 resolved →
      (∃ out, (Site.mk c (.value raw) resolved false).replacement o callName =
          .fixed (braced (backticked out)) ∧
        IsTemplateFor raw raw (fun p key => o.lookup callName key p.payload [] true) 0 resolved out) ∧
      (¬ ((Literal.value raw).isFilledBy phrases = true ∧ resolved.length = 1) →
        ∃ out, b.callOrTemplate quote (.value raw) phrases resolved = backticked out ∧
          IsTemplateFor raw raw (fun p key => b.lookup quote key p.payload []) 0 resolved out)) := by
  refine ⟨fun decoded hdecoded hzero hfollow => ⟨?_, fun hpartial => ?_⟩,
    fun hfollow => ⟨?_, fun hpartial => ?_⟩⟩
  · obtain ⟨out, hout, hkept⟩ := exists_spelledTemplate hdecoded hzero
      (fun p key => o.lookup callName key p.payload [] true) hfollow
    exact ⟨out, congrArg Replacement.fixed hout, hkept⟩
  · rw [b.callOrTemplate_quoted quote hpartial]
    exact exists_spelledTemplate hdecoded hzero _ hfollow
  · obtain ⟨out, hout, hkept⟩ :=
      exists_plainTemplate (fun p key => o.lookup callName key p.payload [] true) hfollow
    exact ⟨out, congrArg (Replacement.fixed ∘ braced) hout, hkept⟩
  · rw [b.callOrTemplate_value quote hpartial]
    exact exists_plainTemplate _ hfollow

/-- A surrogate pair in two escapes, a backtick, `\0`, a phrase, what would open a substitution, and a line
that is continued; and a phrase in an attribute, with a backslash before it and a backtick behind it. -/
theorem partial_replacement_keeps_text_escapes :
    let delimiter := (Delimiter.ofText "(a)").toOption.get (by with_unfolding_all rfl)
    let b : TemplateBlock := ⟨⟨[], "f.vue", {}, delimiter, []⟩, 0, [], "$t"⟩
    let c : Cursor := ⟨.mk { kind := "string", start := 0, stop := 30 } [], []⟩
    let raw : Text := "\\ud83d\\ude00`\\0 a $\x7bb\x7d\\\n\\x41"
    let decoded : Decoded :=
      List.zip (Text.ofString "😀`\x00 a $\x7bb\x7dA") [0, 12, 13, 15, 16, 17, 18, 19, 20, 21, 24]
    let inString : List (Phrase × Key) := [(⟨"a", "a", 4, 5⟩, .name "a")]
    let value : Text := "\\a`"
    let inValue : List (Phrase × Key) := [(⟨"a", "a", 1, 2⟩, .name "a")]
    decodeLiteral raw = .ok decoded ∧ ZerosApart raw ∧
      Follow resolvedSpan decoded.length 0 inString ∧ Follow resolvedSpan value.length 0 inValue ∧
      (Site.mk c (.quoted raw decoded) inString false).replacement {} "t" =
        .fixed "`\\ud83d\\ude00\\`\\0 $\x7bt(\"a\")\x7d \\$\x7bb\x7d\\\n\\x41`" ∧
      (∃ out, (Site.mk c (.quoted raw decoded) inString false).replacement {} "t" = .fixed (backticked out) ∧
        IsTemplateFor raw decoded.text (fun p key => ({} : Options).lookup "t" key p.payload [] true) 0
          inString out) ∧
      b.callOrTemplate (some .single) (.value value) [⟨"a", "a", 1, 2⟩] inValue =
        "`\\\\$\x7b$t(\"a\")\x7d\\``" ∧
      ∃ out, b.callOrTemplate (some .single) (.value value) [⟨"a", "a", 1, 2⟩] inValue = backticked out ∧
        IsTemplateFor value value (fun p key => b.lookup (some .single) key p.payload []) 0 inValue out := by
  intro delimiter b c raw decoded inString value inValue
  have hdecoded : decodeLiteral raw = .ok decoded := by decide +kernel
  have hzero : ZerosApart raw := by decide +kernel
  have hstring : Follow resolvedSpan decoded.length 0 inString :=
    ⟨by decide, by decide, show 5 ≤ decoded.length by decide +kernel⟩
  have hvalue : Follow resolvedSpan value.length 0 inValue :=
    ⟨by decide, by decide, show 2 ≤ value.length by decide +kernel⟩
  refine ⟨hdecoded, hzero, hstring, hvalue, by decide +kernel, ?_, by decide +kernel, ?_⟩
  · exact ((partial_replacement_keeps_text {} "t" c b none [] inString raw).1 decoded hdecoded hzero hstring).1
  · exact ((partial_replacement_keeps_text {} "t" c b (some .single) _ inValue value).2 hvalue).2
      (by decide +kernel)

end Phrasebook
