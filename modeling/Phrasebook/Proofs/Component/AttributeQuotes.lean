import Phrasebook.Proofs.Component.Quiet
import Phrasebook.Proofs.Literal.InTemplate

/-!
# Quotes inside of attributes

What takes the place of a phrase in the value of an attribute stands between the quotes of that attribute.
The text that is kept has no such quote, and neither has the key as it is spelled there; but the comment
behind a lookup holds the message text as it is. In a string literal that text can have any quote, written
with an escape; in a value that is plain text it cannot.

## Main results

* `TemplateBlock.mem_lookup_iff` — the quote stands in a lookup just if it stands in the comment.
* `TemplateBlock.splices_quote_iff` — when the quote of an attribute is written inside of it.
-/

namespace Phrasebook

open List Text

variable {a : Attribute} {c : CodePoint} {q : QuoteMark} {t : Text} {segment : Nat → Nat → Text}

/-! ## Characters of written texts -/

/-- **Replacing leaves the characters in a text** that neither the old nor the new text has.

**Proof sketch.** Induction on the text. What is skipped belongs to the old text, so the character is not
there. -/
theorem mem_replaceAll_iff {old new : Text} (hne : old ≠ []) (hold : c ∉ old) (hnew : c ∉ new) (t : Text) :
    c ∈ t.replaceAll old new ↔ c ∈ t := by
  suffices hfrom : ∀ skip, c ∉ t.take skip → (c ∈ Text.replaceFrom old new skip t ↔ c ∈ t) from
    hfrom 0 (by simp)
  induction t with
  | nil => exact fun _ _ => Iff.rfl
  | cons x rest ih =>
    intro skip hskip
    cases skip with
    | succ skip =>
      rw [take_succ_cons, mem_cons, not_or] at hskip
      rw [Text.replaceFrom, ih skip hskip.2, mem_cons, or_iff_right hskip.1]
    | zero =>
      rw [Text.replaceFrom]
      split_ifs with hprefix
      · obtain ⟨r, hr⟩ := isPrefixOf_iff_prefix.mp hprefix
        obtain ⟨first, others, rfl⟩ := exists_cons_of_ne_nil hne
        obtain ⟨rfl, rfl⟩ := List.cons.inj hr
        rw [mem_cons, not_or] at hold
        have hskipped : c ∉ (others ++ r).take others.length := by
          rw [take_left]
          exact hold.2
        rw [mem_append, or_iff_right hnew, mem_cons, or_iff_right hold.1]
        exact ih others.length hskipped
      · rw [mem_cons, mem_cons, ih 0 (by simp)]

lemma unquoted_placeholder (n : Nat) : Unquoted (placeholder n) :=
  Unquoted.append (Unquoted.append (by decide) (unquoted_ofInt n)) (by decide)

/-- The quotes of a message text stand in its payload. -/
lemma mem_of_mem_canonicalize {payload : Text} (h : q.point ∈ canonicalize payload) : q.point ∈ payload := by
  suffices hwalk : ∀ (t : Text) (afterBackslash : Bool) (skip count : Nat),
      q.point ∈ canonicalFrom afterBackslash skip count t → q.point ∈ t from hwalk payload false 0 0 h
  intro t
  induction t with
  | nil => exact fun _ _ _ h => h
  | cons c rest ih =>
    intro afterBackslash skip count h
    have hkept : ∀ afterBackslash, q.point ∈ c :: canonicalFrom afterBackslash 0 count rest →
        q.point ∈ c :: rest := fun afterBackslash h =>
      (mem_cons.mp h).elim (fun heq => heq ▸ mem_cons_self) fun h =>
        mem_cons_of_mem c (ih _ _ _ h)
    cases skip with
    | succ skip => exact mem_cons_of_mem c (ih _ _ _ h)
    | zero =>
      rw [canonicalFrom] at h
      split_ifs at h
      · exact hkept _ h
      · split at h
        · exact hkept _ h
        · rw [mem_append, mem_append] at h
          rcases h with (h | h) | h
          · exact mem_of_mem_take h
          · exact absurd h ((unquoted_placeholder _).notMem q)
          · exact mem_cons_of_mem c (ih _ _ _ h)

/-- Making text safe in a template literal brings no quote into it. -/
lemma mem_of_mem_templatePoint {rest : Text} (h : q.point ∈ templatePoint c rest) : q.point = c := by
  have hslash : q.point ≠ '\\' := by cases q <;> decide
  rcases templatePoint_cases c rest with ⟨heq, -⟩ | ⟨heq, -⟩
  · rw [heq] at h
    simpa [hslash] using h
  · rw [heq] at h
    simpa using h

/-- Escaping adds no quotes. -/
lemma mem_of_mem_escapeSpelled (h : q.point ∈ escapeSpelled t) : q.point ∈ t := by
  have hslash : q.point ≠ '\\' := by cases q <;> decide
  induction t using escapeInduction with
  | nil => exact h
  | last => exact h
  | escape c rest ih =>
    rw [escapeSpelled] at h
    simp only [mem_cons, hslash, false_or] at h ⊢
    exact h.imp_right ih
  | plain c rest hc ih =>
    rw [escapeSpelled_cons hc, mem_append] at h
    exact h.elim (fun h => mem_of_mem_templatePoint h ▸ mem_cons_self) fun h =>
      mem_cons_of_mem c (ih h)

lemma mem_of_mem_escapePlain (h : q.point ∈ escapePlain t) : q.point ∈ t := by
  induction t with
  | nil => exact h
  | cons c rest ih =>
    rw [escapePlain, mem_append] at h
    rcases h with h | h
    · split_ifs at h
      · exact absurd h (by cases q <;> decide)
      · exact mem_of_mem_templatePoint h ▸ mem_cons_self
    · exact mem_cons_of_mem c (ih h)

/-- If nothing that is kept has a character, it stands where a phrase has been replaced. -/
lemma mem_interpolate_iff {write : Phrase → Key → Text}
    (hsegment : ∀ start stop, c ∉ segment start stop) {length cursor : Nat} {resolved : List (Phrase × Key)} :
    c ∈ interpolate segment write length cursor resolved ↔ ∃ x ∈ resolved, c ∈ write x.1 x.2 := by
  induction resolved generalizing cursor with
  | nil => simp [interpolate, hsegment]
  | cons x resolved ih => simp [interpolate, hsegment, ih]

/-- The text from which a literal keeps what stands beside its phrases. -/
def Literal.spelling : Literal → Text
  | .quoted raw _ => raw
  | l => l.content

/-! ## The values of attributes -/

/-- An attribute that is found in a text is the text that it has. -/
lemma exists_of_mem_attributesFrom {offset skip : Nat} (h : a ∈ attributesFrom offset skip t) :
    ∃ (u : Text) (text : AttributeText) (r : Text), t = u ++ text.text ++ r ∧
      a = text.placed (offset + u.length) := by
  induction t generalizing offset skip with
  | nil => cases h
  | cons c rest ih =>
    have hlater : ∀ {skip}, a ∈ attributesFrom (offset + 1) skip rest →
        ∃ (u : Text) (text : AttributeText) (r : Text), c :: rest = u ++ text.text ++ r ∧
          a = text.placed (offset + u.length) := by
      intro skip h
      obtain ⟨u, text, r, rfl, rfl⟩ := ih h
      exact ⟨c :: u, text, r, rfl, by rw [length_cons, Nat.add_assoc, Nat.add_comm 1]⟩
    cases skip with
    | succ skip => exact hlater h
    | zero =>
      rw [attributesFrom_zero] at h
      cases hattr : attributeAt? offset (c :: rest) with
      | none =>
        rw [hattr] at h
        exact hlater h
      | some found =>
        rw [hattr] at h
        rcases mem_cons.mp h with rfl | h
        · obtain ⟨text, r, hsplit, rfl⟩ := exists_of_attributeAt? hattr
          exact ⟨[], text, r, hsplit, rfl⟩
        · exact hlater h

namespace TemplateBlock

variable {b : TemplateBlock}

/-- **The value of an attribute does not hold its quote.** -/
theorem notMem_valueOf (ha : a ∈ b.attributes) : a.quote.point ∉ b.valueOf a := by
  obtain ⟨part, hpart, ha⟩ := mem_flatMap.mp ha
  have hle := (follow_markupParts b.content).le_of_mem hpart
  obtain ⟨-, hstop⟩ := (follow_markupParts b.content).between hpart
  cases part with
  | text start stop => exact absurd ha not_mem_nil
  | tag start stop =>
    simp only [Part.span] at hle hstop
    obtain ⟨u, text, r, hslice, rfl⟩ := exists_of_mem_attributesFrom ha
    have hcontent : b.content = b.content.take start ++ u ++ text.opening ++
        (text.value ++ ([text.quote.point] ++ r ++ b.content.drop stop)) := by
      conv_lhs => rw [← take_append_drop start b.content, ← slice_append_drop _ hle, hslice]
      simp [AttributeText.text]
    have hvalue : b.valueOf (text.placed (start + u.length)) = text.value := by
      refine slice_of_eq hcontent ?_ rfl
      simp only [AttributeText.placed, length_append, length_take]
      omega
    rw [hvalue]
    exact fun hmem => text.value_mem _ hmem rfl

/-! ## What takes the place of phrases -/

variable {q : QuoteMark}

/-- **A lookup in an attribute** holds the quote of the attribute exactly if its comment does. -/
theorem mem_lookup_iff (hcall : Unquoted b.callName) (key : Key) (payload : Text) :
    q.point ∈ b.lookup (some q) key payload [] ↔
      b.extractor.options.appendComment ∧ q.point ∈ canonicalize payload := by
  have hcallName := hcall.notMem q
  have hliteral := key.notMem_attributeLiteral q
  have hmarks : ∀ mark ∈ ["(", ")", " ", "/* ", " */"], q.point ∉ Text.ofString mark := by
    cases q <;> decide
  have htext : q.point ∈ withoutCommentEnd (canonicalize payload) ↔ q.point ∈ canonicalize payload :=
    mem_replaceAll_iff (by decide) (by cases q <;> decide) (by cases q <;> decide) _
  simp only [forall_mem_cons] at hmarks
  obtain ⟨hopen, hclose, hspace, hbegin, hend, -⟩ := hmarks
  rw [lookup]
  simp only [isEmpty_nil, if_true, append_nil, mem_append, hcallName, hliteral, hopen, hclose,
    false_or]
  rw [Options.comment]
  cases b.extractor.options.appendComment with
  | false => simp
  | true => simp [blockComment, hspace, hbegin, hend, htext]

/-- The same for a template literal with lookups in it. -/
lemma mem_backticked_iff (hcall : Unquoted b.callName) (hsegment : ∀ start stop, q.point ∉ segment start stop)
    (length : Nat) (resolved : List (Phrase × Key)) :
    q.point ∈ backticked (interpolate segment (b.embedded (some q)) length 0 resolved) ↔
      ∃ x ∈ resolved, b.extractor.options.appendComment ∧ q.point ∈ canonicalize x.1.payload := by
  have hmarks : ∀ mark ∈ ["`", "$\x7b", "\x7d"], q.point ∉ Text.ofString mark := by
    cases q <;> decide
  simp only [forall_mem_cons] at hmarks
  obtain ⟨hback, hopen, hclose, -⟩ := hmarks
  simp only [backticked, mem_append, hback, false_or, or_false, mem_interpolate_iff hsegment, embedded,
    substitution, hopen, hclose, mem_lookup_iff hcall]

/-- **What takes the place of phrases** holds a quote that the literal is not spelled with exactly if there
are comments, and one of the message texts has that quote. -/
theorem mem_callOrTemplate_iff (hcall : Unquoted b.callName) {l : Literal} (hl : q.point ∉ l.spelling)
    (phrases : List Phrase) (resolved : List (Phrase × Key)) :
    q.point ∈ b.callOrTemplate (some q) l phrases resolved ↔
      ∃ x ∈ resolved, b.extractor.options.appendComment ∧ q.point ∈ canonicalize x.1.payload := by
  unfold callOrTemplate
  split
  · rw [mem_lookup_iff hcall]
    simp
  · exact mem_backticked_iff hcall
      (fun start stop hmem => hl (slice_subset _ _ _ (mem_of_mem_escapeSpelled hmem))) _ _
  · rename_i l _ _ _ hquoted _
    have hcontent : q.point ∉ l.content := by
      cases l with
      | quoted raw decoded => exact absurd rfl (hquoted raw decoded)
      | value raw => exact hl
      | markup raw => exact hl
      | template text => exact hl
    exact mem_backticked_iff hcall
      (fun start stop hmem => hcontent (slice_subset _ _ _ (mem_of_mem_escapePlain hmem))) _ _

/-! ## Replacements in attributes -/

variable {l l' : Ledger} {out : List Splice} {s : Splice}

/-- An attribute whose value is plain text is still one: the new value does not hold its quote. -/
lemma quote_staticSplice (hcall : Unquoted b.callName) (ha : a ∈ b.attributes)
    (hrun : Runs (b.staticSplice a) l out l') (hs : s ∈ out) :
    ∃ value, a.quote.point ∉ value ∧
      s = ⟨a.start, a.stop, ":" ++ a.name ++ "=" ++ [a.quote.point] ++ value ++ [a.quote.point]⟩ := by
  obtain ⟨resolved, -, hassigned, rfl⟩ := runs_staticSplice hrun
  have hvalue := notMem_valueOf ha
  split_ifs at hs
  · exact absurd hs not_mem_nil
  · refine ⟨_, ?_, mem_singleton.mp hs⟩
    rw [mem_callOrTemplate_iff hcall (l := .value (b.valueOf a)) hvalue]
    rintro ⟨x, hx, -, hmem⟩
    have hpayload := b.extractor.delimiter.payload_subset (hassigned.mem_phrases hx).1
    exact hvalue (hpayload (mem_of_mem_canonicalize hmem))

/-- A string literal in an attribute: its replacement holds the quote of the attribute exactly if it has
comments, and one of the message texts has that quote. -/
lemma quote_literalSplice (hcall : Unquoted b.callName) {start : Nat} {e : Text} {span : Nat × Nat}
    (he : q.point ∉ e) (hrun : Runs (b.literalSplice (some q) start e span) l out l') (hs : s ∈ out) :
    ∃ decoded, decodeLiteral (literalInside e span) = .ok decoded ∧ s.start = start + span.1 ∧
      s.stop = start + span.2 ∧
      (q.point ∈ s.text ↔ b.extractor.options.appendComment ∧
        ∃ p ∈ b.extractor.delimiter.marked decoded.text, q.point ∈ canonicalize p.payload) := by
  rcases runs_literalSplice hrun with ⟨-, rfl, -⟩ | ⟨-, -, decoded, resolved, hdecode, hassigned, rfl⟩
  · exact absurd hs not_mem_nil
  · split_ifs at hs
    · exact absurd hs not_mem_nil
    · obtain rfl := mem_singleton.mp hs
      have hinside : q.point ∉ literalInside e span := fun hmem => he (slice_subset _ _ _ hmem)
      have hphrases : b.extractor.delimiter.marked decoded.text = resolved.map Prod.fst :=
        hassigned.phrases_eq.symm
      have htext := mem_callOrTemplate_iff hcall (l := .quoted (literalInside e span) decoded) hinside
        (b.extractor.delimiter.phrases decoded.text) resolved
      refine ⟨decoded, hdecode, rfl, rfl, htext.trans ?_⟩
      rw [hphrases]
      constructor
      · rintro ⟨x, hx, hcomment, hmem⟩
        exact ⟨hcomment, x.1, mem_map_of_mem hx, hmem⟩
      · rintro ⟨hcomment, p, hp, hmem⟩
        obtain ⟨x, hx, rfl⟩ := mem_map.mp hp
        exact ⟨x, hx, hcomment, hmem⟩

/-- **When a replacement closes the attribute it stands in.** Let the name of lookups have no quotes. If the
conversion of a template does not fail, consider a replacement that does not stand outside of an attribute.

* In an attribute whose value is plain text it is the whole attribute, bound to an expression that does not
  hold the quote of the attribute.
* In a bound attribute it is that of a string literal. It holds the quote of the attribute exactly if
  comments are wanted, and one of the message texts of the literal has that quote. -/
theorem splices_quote_iff (b : TemplateBlock) (hcall : Unquoted b.callName) (l : Ledger) :
    (∃ failure l', b.splices.run.run l = (.error failure, l') ∧ b.Hindrance failure) ∨
      ∃ out l', Runs b.splices l out l' ∧ ∀ a ∈ b.attributes, ∀ s ∈ out,
        ¬ (s.stop ≤ a.start ∨ a.stop ≤ s.start) →
        (a.isBound = false → ∃ value, a.quote.point ∉ value ∧
          s = ⟨a.start, a.stop, ":" ++ a.name ++ "=" ++ [a.quote.point] ++ value ++ [a.quote.point]⟩) ∧
        (a.isBound = true → ∃ span ∈ stringLiterals (b.valueOf a), ∃ decoded,
          decodeLiteral (literalInside (b.valueOf a) span) = .ok decoded ∧
          s.start = a.valueStart + span.1 ∧ s.stop = a.valueStart + span.2 ∧
          (a.quote.point ∈ s.text ↔ b.extractor.options.appendComment = true ∧
            ∃ p ∈ b.extractor.delimiter.marked decoded.text, a.quote.point ∈ canonicalize p.payload)) := by
  rcases hrun : b.splices.run.run l with ⟨failure | out, l'⟩
  · exact .inl ⟨failure, l', rfl, failsBy_splices b l failure l' hrun⟩
  · refine .inr ⟨out, l', hrun, fun a ha s hs hinside => ?_⟩
    obtain ⟨m, here, m', hrun', -, hapart⟩ := isolates_attribute ha l out l' hrun
    have hs' := (hapart s hs).resolve_right hinside
    constructor
    · intro hbound
      rw [attributeSplices, if_neg (by simp [hbound])] at hrun'
      exact quote_staticSplice hcall ha hrun' hs'
    · intro hbound
      rw [attributeSplices, if_pos hbound] at hrun'
      obtain ⟨span, hspan, n, found, n', hrun'', hs''⟩ := exists_run_of_mem_gather hrun' hs'
      obtain ⟨decoded, hliteral⟩ := quote_literalSplice hcall (notMem_valueOf ha) hrun'' hs''
      exact ⟨span, hspan, decoded, hliteral⟩

/-- A quote that is written with an escape stands in the comment as it is, and closes the attribute. -/
theorem splices_quote_iff_escaped :
    let delimiter := (Delimiter.ofText "(\")").toOption.get (by with_unfolding_all rfl)
    let options : Options := { appendComment := true }
    let b : TemplateBlock := ⟨⟨[], "f.vue", options, delimiter, []⟩, 0, "<p :x=\"'\\x22'\">", "$t"⟩
    Unquoted b.callName ∧ ∃ out l', Runs b.splices {} out l' ∧
      ∃ s ∈ out, s.start = 7 ∧ s.stop = 13 ∧ QuoteMark.double.point ∈ s.text := by
  intro delimiter options b
  have hcall : Unquoted b.callName := by decide
  refine ⟨hcall, ?_⟩
  have hfound : (b.splices.run.run {}).1.toOption.any
      (fun out => out.any fun s => s.start == 7 && s.stop == 13) = true := by decide +kernel
  rcases splices_quote_iff b hcall {} with ⟨failure, l', hrun, -⟩ | ⟨out, l', hrun, hattributes⟩
  · rw [hrun] at hfound
    cases hfound
  · rw [show b.splices.run.run {} = (.ok out, l') from hrun] at hfound
    obtain ⟨s, hs, hspan⟩ := any_eq_true.mp hfound
    obtain ⟨hstart, hstop⟩ : s.start = 7 ∧ s.stop = 13 := by simpa using hspan
    let a : Attribute := ⟨":x", .double, 3, 7, 13⟩
    have ha : a ∈ b.attributes := by decide +kernel
    have hinside : ¬ (s.stop ≤ a.start ∨ a.stop ≤ s.start) := by
      simp only [hstart, hstop, a, Attribute.stop]
      omega
    obtain ⟨span, -, decoded, hdecode, hfirst, hlast, hiff⟩ :=
      (hattributes a ha s hs hinside).2 (by decide)
    obtain rfl : span = (0, 6) := by
      simp only [hstart, hstop, a] at hfirst hlast
      exact Prod.ext (by omega) (by omega)
    have hdecode' : decodeLiteral (literalInside (b.valueOf a) (0, 6)) = .ok [('"', 0)] := by
      decide +kernel
    obtain rfl := Except.ok.inj (hdecode'.symm.trans hdecode)
    exact ⟨out, l', hrun, s, hs, hstart, hstop, hiff.mpr ⟨rfl, by decide +kernel⟩⟩

end TemplateBlock

end Phrasebook
