import Phrasebook.Literal.Template
import Phrasebook.Proofs.Literal.Decoding

/-!
# Texts that move into template literals

A text that moves into a template literal is escaped where it would end the literal or open a substitution.
A text that is spelled with escapes is escaped spelling by spelling, so each of them stands for what it did;
a text without escapes is spelled for the first time.

## Main results

* `isTemplateText_escapeSpelled`, `isTemplateText_escapePlain` — neither a backtick nor the opening of a
  substitution is left that is not escaped.
* `map_text_decodeLiteral_escapeSpelled`, `map_text_decodeLiteral_escapePlain` — the text keeps its value.
-/

namespace Phrasebook

open List Option

variable {rest w : Text} {c : CodePoint} {n : Nat} {us : Spellings}

/-- **Text that neither ends a template literal nor opens a substitution in it.** -/
structure IsTemplateText (t : Text) : Prop where
  backtick : IsEscapedIn ['`'] t
  opening : IsEscapedIn ['$', '\x7b'] t

namespace IsTemplateText

variable {t : Text}

lemma nil : IsTemplateText [] := ⟨.nil _, .nil _⟩

lemma cons (hslash : c ≠ '\\') (hback : c ≠ '`')
    (hdollar : c = '$' → t.head? ≠ some '\x7b') (h : IsTemplateText t) :
    IsTemplateText (c :: t) := by
  refine ⟨h.backtick.cons hslash fun hbegins => ?_, h.opening.cons hslash fun hbegins => ?_⟩
  · exact hback (cons_prefix_cons.mp hbegins).1.symm
  · obtain ⟨heq, r, rfl⟩ := cons_prefix_cons.mp hbegins
    exact hdollar heq.symm rfl

lemma escape (c : CodePoint) (h : IsTemplateText t) : IsTemplateText ('\\' :: c :: t) :=
  ⟨h.backtick.escape (by decide) c, h.opening.escape (by decide) c⟩

end IsTemplateText

/-! ## Escaped text -/

/-- A character of template text is escaped, or stands as it is. -/
lemma templatePoint_cases (c : CodePoint) (rest : Text) :
    (templatePoint c rest = [.scalar '\\', c] ∧ simpleEscape? c = some c) ∨
      (templatePoint c rest = [c] ∧ c ≠ '`' ∧
        (c = '$' → rest.head? ≠ some '\x7b')) := by
  rw [templatePoint]
  split_ifs with hback hdollar
  · obtain rfl := eq_of_beq hback
    exact .inl ⟨rfl, by decide⟩
  · obtain ⟨rfl, -⟩ : c = '$' ∧ opensBrace rest := by simpa using hdollar
    exact .inl ⟨rfl, by decide⟩
  · refine .inr ⟨rfl, by simpa using hback, ?_⟩
    rintro rfl hhead
    exact hdollar (by simp [opensBrace, hhead])

lemma escapeSpelled_cons (hc : c ≠ '\\') (rest : Text) :
    escapeSpelled (c :: rest) = templatePoint c rest ++ escapeSpelled rest := by
  rw [escapeSpelled]
  rintro d t rfl -
  exact hc rfl

/-- What begins escaped text without a backslash begins the text as well. -/
lemma prefix_of_prefix_escapeSpelled (hw : .scalar '\\' ∉ w) (h : w <+: escapeSpelled rest) : w <+: rest := by
  induction w generalizing rest with
  | nil => exact nil_prefix
  | cons c w ih =>
    rw [mem_cons, not_or] at hw
    cases rest with
    | nil => exact h
    | cons d rest =>
      by_cases hd : d = '\\'
      · subst hd
        have hhead : (escapeSpelled ('\\' :: rest)).head? = some '\\' := by
          cases rest <;> rfl
        obtain ⟨r, hr⟩ := h
        rw [← hr] at hhead
        exact absurd (some.inj hhead).symm hw.1
      · rw [escapeSpelled_cons hd] at h
        rcases templatePoint_cases d rest with ⟨heq, -⟩ | ⟨heq, -⟩
        · rw [heq] at h
          exact absurd (cons_prefix_cons.mp h).1.symm hw.1
        · rw [heq] at h
          obtain ⟨rfl, hrest⟩ := cons_prefix_cons.mp h
          exact cons_prefix_cons.mpr ⟨rfl, ih hw.2 hrest⟩

lemma head?_of_head?_escapeSpelled (hc : c ≠ '\\')
    (h : (escapeSpelled rest).head? = some c) : rest.head? = some c := by
  obtain ⟨t, ht⟩ := head?_eq_some_iff.mp h
  have hbegins : [c] <+: escapeSpelled rest := ⟨t, ht.symm⟩
  obtain ⟨r, rfl⟩ := prefix_of_prefix_escapeSpelled (by simpa using hc.symm) hbegins
  rfl

/-- **Escaped text is template text.** -/
theorem isTemplateText_escapeSpelled (t : Text) : IsTemplateText (escapeSpelled t) := by
  induction t using escapeInduction with
  | nil => exact .nil
  | last => exact ⟨by decide, by decide⟩
  | escape c rest ih => exact ih.escape c
  | plain c rest hc ih =>
    rw [escapeSpelled_cons hc]
    rcases templatePoint_cases c rest with ⟨heq, -⟩ | ⟨heq, hback, hdollar⟩
    · rw [heq]
      exact ih.escape c
    · rw [heq]
      exact ih.cons hc hback fun hd hhead => hdollar hd (head?_of_head?_escapeSpelled (by decide) hhead)

/-- Escaped text that began without an opening brace does not begin with one. -/
lemma head?_escapePlain_ne {t : Text} (h : t.head? ≠ some '\x7b') :
    (escapePlain t).head? ≠ some '\x7b' := by
  cases t with
  | nil => exact h
  | cons c t =>
    rw [escapePlain]
    split_ifs with hslash
    · exact fun hhead => absurd (some.inj hhead) (by decide)
    · rcases templatePoint_cases c t with ⟨heq, -⟩ | ⟨heq, -⟩
      · rw [heq]
        exact fun hhead => absurd (some.inj hhead) (by decide)
      · rw [heq]
        exact fun hhead => h hhead

/-- So is text without escapes. -/
theorem isTemplateText_escapePlain (t : Text) : IsTemplateText (escapePlain t) := by
  induction t with
  | nil => exact .nil
  | cons c t ih =>
    rw [escapePlain]
    split_ifs with hslash
    · exact ih.escape '\\'
    · rcases templatePoint_cases c t with ⟨heq, -⟩ | ⟨heq, hback, hdollar⟩
      · rw [heq]
        exact ih.escape c
      · rw [heq]
        exact ih.cons (by simpa using hslash) hback fun hd => head?_escapePlain_ne (hdollar hd)

/-- Escaping does not change whether a text ends inside of an escape. -/
lemma endingBackslashes_escapeSpelled (t : Text) :
    endingBackslashes (escapeSpelled t) % 2 = endingBackslashes t % 2 := by
  induction t using escapeInduction with
  | nil => rfl
  | last => rfl
  | escape c rest ih =>
    have hescape := endingBackslashes_append_mod_two (endingBackslashes_escape c)
    exact (hescape (escapeSpelled rest)).trans (ih.trans (hescape rest).symm)
  | plain c rest hc ih =>
    have hsingle := endingBackslashes_singleton hc
    have hplain := endingBackslashes_append_mod_two (u := [c]) (by rw [hsingle]) rest
    rw [singleton_append] at hplain
    rw [escapeSpelled_cons hc]
    rcases templatePoint_cases c rest with ⟨heq, -⟩ | ⟨heq, -⟩
    · rw [heq, endingBackslashes_append_mod_two (endingBackslashes_escape c), ih, hplain]
    · rw [heq, endingBackslashes_append_mod_two (by rw [hsingle]), ih, hplain]

/-- Backslashes are doubled. -/
lemma endingBackslashes_escapePlain (t : Text) : endingBackslashes (escapePlain t) % 2 = 0 := by
  induction t with
  | nil => rfl
  | cons c t ih =>
    rw [escapePlain]
    split_ifs with hslash
    · exact (endingBackslashes_append_mod_two (endingBackslashes_escape '\\') _).trans ih
    · rcases templatePoint_cases c t with ⟨heq, -⟩ | ⟨heq, -⟩
      · rw [heq, endingBackslashes_append_mod_two (endingBackslashes_escape c), ih]
      · have hsingle := endingBackslashes_singleton (show c ≠ '\\' by simpa using hslash)
        rw [heq, endingBackslashes_append_mod_two (by rw [hsingle]), ih]

/-! ## Values -/

/-- Characters that mean nothing in a template literal stand as they are. -/
lemma escapeSpelled_append (rest : Text) (hw : ∀ c ∈ w, c ≠ '\\' ∧ c ≠ '`' ∧ c ≠ '$') :
    escapeSpelled (w ++ rest) = w ++ escapeSpelled rest := by
  induction w with
  | nil => rfl
  | cons c w ih =>
    obtain ⟨⟨hslash, hback, hdollar⟩, hrest⟩ := forall_mem_cons.mp hw
    have hpoint : templatePoint c (w ++ rest) = [c] := by simp [templatePoint, hback, hdollar]
    rw [cons_append, escapeSpelled_cons hslash, hpoint, ih hrest]
    rfl

/-- The digits of an escape mean nothing in a template literal. -/
lemma plain_of_hexValue? (h : hexValue? w = some n) :
    ∀ c ∈ w, c ≠ '\\' ∧ c ≠ '`' ∧ c ≠ '$' := fun c hc =>
  ⟨ne_of_hexValue? h (by decide) c hc, ne_of_hexValue? h (by decide) c hc,
    ne_of_hexValue? h (by decide) c hc⟩

lemma CodeDigits.plain (h : CodeDigits w n) : ∀ c ∈ w, c ≠ '\\' ∧ c ≠ '`' ∧ c ≠ '$' := by
  cases h with
  | four _ hvalue => exact plain_of_hexValue? hvalue
  | braced hvalue =>
    intro c hc
    simp only [mem_cons, mem_append, not_mem_nil, or_false] at hc
    rcases hc with rfl | hc | rfl
    · decide
    · exact plain_of_hexValue? hvalue c hc
    · decide

/-- A digit stays the first character. -/
lemma any_isDigit_escapeSpelled (rest : Text) :
    (escapeSpelled rest).head?.any CodePoint.isDigit = rest.head?.any CodePoint.isDigit := by
  rw [Bool.eq_iff_iff, Option.any_eq_true, Option.any_eq_true]
  constructor
  · rintro ⟨d, hd, hdigit⟩
    refine ⟨d, head?_of_head?_escapeSpelled ?_ hd, hdigit⟩
    rintro rfl
    exact absurd hdigit (by decide +kernel)
  · rintro ⟨d, hd, hdigit⟩
    obtain ⟨r, rfl⟩ := head?_eq_some_iff.mp hd
    have hne : ∀ e : Char, (CodePoint.scalar e).isDigit = false → d ≠ .scalar e := by
      rintro e he rfl
      rw [hdigit] at he
      cases he
    have hpoint : templatePoint d r = [d] := by
      simp [templatePoint, hne '`' (by decide +kernel), hne '$' (by decide +kernel)]
    refine ⟨d, ?_, hdigit⟩
    rw [escapeSpelled_cons (hne '\\' (by decide +kernel)), hpoint]
    rfl

/-- **A spelling is escaped** so that it stands for the same. -/
theorem Spells.exists_escapeSpelled {m : Spelling} (h : Spells rest w m) :
    ∃ v, Spells (escapeSpelled rest) v m ∧ escapeSpelled (w ++ rest) = v ++ escapeSpelled rest := by
  -- digits do not begin in the escaped rest if they did not before
  have hnone : ∀ {digits : Text}, (∀ c ∈ digits, c ≠ '\\') → ¬ digits <+: rest →
      ¬ digits <+: escapeSpelled rest := fun hslash hno hbegins =>
    hno (prefix_of_prefix_escapeSpelled (fun hmem => hslash _ hmem rfl) hbegins)
  cases h with
  | @plain c hc =>
    rcases templatePoint_cases c rest with ⟨heq, hsimple⟩ | ⟨heq, -⟩
    · exact ⟨_, .simple hsimple, by rw [singleton_append, escapeSpelled_cons hc, heq]⟩
    · exact ⟨_, .plain hc, by rw [singleton_append, escapeSpelled_cons hc, heq]⟩
  | last hrest =>
    subst hrest
    exact ⟨_, .last rfl, rfl⟩
  | simple he => exact ⟨_, .simple he, rfl⟩
  | lineEnd he =>
    exact ⟨_, .lineEnd (he.imp_left fun h => ⟨h.1, fun hfeed =>
      h.2 (head?_of_head?_escapeSpelled (by decide) hfeed)⟩), rfl⟩
  | returnAndLineFeed => exact ⟨_, .returnAndLineFeed, rfl⟩
  | @code digits n hw =>
    refine ⟨_, .code hw, ?_⟩
    show .scalar '\\' :: .scalar 'u' :: escapeSpelled (digits ++ rest) = _
    rw [escapeSpelled_append rest hw.plain]
    rfl
  | @hex digits n hlength hvalue =>
    refine ⟨_, .hex hlength hvalue, ?_⟩
    show .scalar '\\' :: .scalar 'x' :: escapeSpelled (digits ++ rest) = _
    rw [escapeSpelled_append rest (plain_of_hexValue? hvalue)]
    rfl
  | zero hrest => exact ⟨_, .zero (by rw [any_isDigit_escapeSpelled, hrest]), rfl⟩
  | other hsimple hreturn hline hcode hhex hzero =>
    refine ⟨_, .other hsimple hreturn hline ?_ ?_ fun hz => ?_, rfl⟩
    · exact fun hu digits n hw => hnone (fun c hc => (hw.plain c hc).1) (hcode hu digits n hw)
    · exact fun hx digits n hlength hvalue =>
        hnone (fun c hc => (plain_of_hexValue? hvalue c hc).1) (hhex hx digits n hlength hvalue)
    · rw [any_isDigit_escapeSpelled, hzero hz]

/-- **Spellings are escaped one by one**, and stand for the same. -/
theorem Spellings.Reads.exists_escapeSpelled (h : us.Reads) :
    ∃ vs : Spellings, vs.Reads ∧ vs.text = escapeSpelled us.text ∧ vs.meanings = us.meanings := by
  induction h with
  | nil => exact ⟨[], .nil, rfl, rfl⟩
  | @cons w m us hspells _ ih =>
    obtain ⟨vs, hvs, htext, hmeanings⟩ := ih
    obtain ⟨v, hv, hescaped⟩ := hspells.exists_escapeSpelled
    refine ⟨(v, m) :: vs, .cons (htext ▸ hv) hvs, ?_, congrArg (m :: ·) hmeanings⟩
    rw [text_cons, text_cons, hescaped, htext]

/-- **A text that is spelled with escapes keeps its value.** -/
theorem map_text_decodeLiteral_escapeSpelled (h : us.Reads) :
    (decodeLiteral (escapeSpelled us.text)).map Decoded.text = us.value := by
  obtain ⟨vs, hvs, htext, hmeanings⟩ := h.exists_escapeSpelled
  rw [← htext, Spellings.map_text_decodeLiteral hvs, Spellings.value_congr hmeanings]

/-- A text without escapes is spelled character by character. -/
lemma exists_reads_escapePlain (t : Text) :
    ∃ us : Spellings, us.Reads ∧ us.text = escapePlain t ∧ us.meanings = t.map .point := by
  induction t with
  | nil => exact ⟨[], .nil, rfl, rfl⟩
  | cons c t ih =>
    obtain ⟨us, hus, htext, hmeanings⟩ := ih
    -- the character stands as it is, or behind a backslash
    obtain ⟨w, hw, hescaped⟩ : ∃ w, Spells us.text w (.point c) ∧
        escapePlain (c :: t) = w ++ escapePlain t := by
      rw [escapePlain]
      split_ifs with hslash
      · obtain rfl := eq_of_beq hslash
        exact ⟨_, .simple (e := .scalar '\\') (by decide), rfl⟩
      · rcases templatePoint_cases c t with ⟨heq, hsimple⟩ | ⟨heq, -⟩
        · exact ⟨_, .simple hsimple, by rw [heq]⟩
        · exact ⟨_, .plain (by simpa using hslash), by rw [heq]⟩
    refine ⟨(w, .point c) :: us, .cons hw hus, ?_, congrArg (Spelling.point c :: ·) hmeanings⟩
    rw [Spellings.text_cons, hescaped, htext]

/-- **A text without escapes keeps its value.** -/
theorem map_text_decodeLiteral_escapePlain (t : Text) :
    (decodeLiteral (escapePlain t)).map Decoded.text = .ok t := by
  obtain ⟨us, hus, htext, hmeanings⟩ := exists_reads_escapePlain t
  rw [← htext, Spellings.map_text_decodeLiteral hus]
  refine Spellings.value_of_owns ?_
  rw [hmeanings, forall₂_map_left_iff]
  exact forall₂_same.mpr fun c _ => Spellings.owns_point c

end Phrasebook
