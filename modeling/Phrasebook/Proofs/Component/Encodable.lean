import Phrasebook.Proofs.Component.Edits
import Phrasebook.Proofs.Edit.Encodable
import Phrasebook.Proofs.Site.Encodable

/-!
# Templates that can be written out

In the text of a template and in the values of its attributes, phrases stand as they are written. In
the string literals of its expressions escapes are decoded first, and an escape may stand for half of a
surrogate pair.

## Main results

* `TemplateBlock.IsPlain.gives_convert` — if no marked phrase of a literal has a lone surrogate, the
  converted template can be written out.
-/

namespace Phrasebook

open List Option Text

variable {a : Attribute} {t : Text}

lemma name_subset_of_mem_attributesFrom {offset skip : Nat} (h : a ∈ attributesFrom offset skip t) :
    a.name ⊆ t := by
  induction t generalizing offset skip with
  | nil => cases h
  | cons c rest ih =>
    cases skip with
    | succ skip => exact subset_cons_of_subset c (ih h)
    | zero =>
      rw [attributesFrom_zero] at h
      cases hattr : attributeAt? offset (c :: rest) with
      | none =>
        rw [hattr] at h
        exact subset_cons_of_subset c (ih h)
      | some found =>
        rw [hattr] at h
        rcases mem_cons.mp h with rfl | h
        · simp only [attributeAt?, bind_eq_bind, bind_eq_some_iff] at hattr
          obtain ⟨quote, -, hattr⟩ := hattr
          split_ifs at hattr
          obtain rfl := some.inj hattr
          exact takeWhile_subset _
        · exact subset_cons_of_subset c (ih h)

namespace TemplateBlock

variable {b : TemplateBlock}

/-- The phrases that are marked in a string literal of an expression, unless it is the argument of a
lookup. -/
def literalPhrases (b : TemplateBlock) (expression : Text) (span : Nat × Nat) : List Phrase :=
  if opensLookup b.callName (expression.take span.1) then []
  else
    match decodeLiteral (literalInside expression span) with
    | .ok decoded => b.extractor.delimiter.marked decoded.text
    | .error _ => []

/-- The phrases that are marked in the string literals of an expression. -/
def expressionPhrases (b : TemplateBlock) (start stop : Nat) : List Phrase :=
  let expression := b.content.slice start stop
  (stringLiterals expression).flatMap (b.literalPhrases expression)

/-- The phrases that are marked in the string literals of a template. -/
def spelledPhrases (b : TemplateBlock) : List Phrase :=
  b.expressions.flatMap fun x => b.expressionPhrases x.2.1 x.2.2

/-- No function of the caller writes anything, and what is given can be written out. -/
structure IsPlain (b : TemplateBlock) : Prop where
  extractor : b.extractor.IsPlain
  content : b.content.isEncodable = true
  callName : b.callName.isEncodable = true

/-! ## What takes the place of phrases -/

lemma IsPlain.isEncodable_lookup (h : b.IsPlain) (quote : Option QuoteMark) {key : Key}
    (hkey : key.isEncodable) {payload : Text} (hpayload : payload.isEncodable)
    {arguments : List Argument} (harguments : ∀ a ∈ arguments, a.isEncodable) :
    (b.lookup quote key payload arguments).isEncodable := by
  have hcomment := Options.isEncodable_comment (o := b.extractor.options)
    (isEncodable_canonicalize hpayload) true
  have hliteral := Key.isEncodable_attributeLiteral hkey quote
  simp only [lookup, isEncodable_append, h.callName, hliteral, hcomment,
    isEncodable_ofString, Bool.true_and, Bool.and_true]
  split_ifs
  · rfl
  · simp [isEncodable_renderArguments harguments]

lemma IsPlain.isEncodable_callOrTemplate (h : b.IsPlain) (quote : Option QuoteMark) {l : Literal}
    (hl : l.IsEncodable) (phrases : List Phrase) {resolved : List (Phrase × Key)}
    (hresolved : ∀ x ∈ resolved, x.1.payload.isEncodable ∧ x.2.isEncodable) :
    (b.callOrTemplate quote l phrases resolved).isEncodable := by
  have hlookup : ∀ x ∈ resolved, (b.lookup quote x.2 x.1.payload []).isEncodable := fun x hx =>
    h.isEncodable_lookup quote (hresolved x hx).2 (hresolved x hx).1 (forall_mem_nil _)
  have hembedded : ∀ x ∈ resolved, (b.embedded quote x.1 x.2).isEncodable := fun x hx =>
    isEncodable_substitution (hlookup x hx)
  unfold callOrTemplate
  split
  · exact hlookup _ mem_cons_self
  · exact isEncodable_spelledTemplate hl _ hembedded
  · rename_i l _ _ _ hquoted _
    refine isEncodable_plainTemplate ?_ hembedded
    cases l with
    | quoted raw decoded => exact absurd rfl (hquoted raw decoded)
    | value raw => exact hl
    | markup raw => exact hl
    | template text => exact hl

/-! ## Steps -/

/-- Replacements that can be written out. -/
def AreEncodable (out : List Splice) : Prop := ∀ s ∈ out, s.text.isEncodable = true

section Steps

variable {strict : Bool}

lemma IsPlain.gives_resolveAll (h : b.IsPlain) (offset : Phrase → Nat) {phrases : List Phrase}
    (hphrases : ∀ p ∈ phrases, (b.extractor.delimiter.phrase? p.full).isSome → p.isEncodable) :
    Gives (Ledger.IsPlain strict) (b.resolveAll offset phrases) fun resolved =>
      ∀ x ∈ resolved, x.1.payload.isEncodable ∧ x.2.isEncodable := by
  induction phrases with
  | nil => exact .pure (forall_mem_nil _)
  | cons p rest ih =>
    obtain ⟨hp, hrest⟩ := forall_mem_cons.mp hphrases
    refine Gives.resolved ?_ (ih hrest)
    refine (gives_resolveKey h.extractor.options.keys h.extractor.catalogue fun _ hmarked =>
      (Phrase.isEncodable_iff.mp (hp hmarked)).1).imp fun key hkey k hk => ?_
    obtain ⟨hmarked, hencodable⟩ := hkey k hk
    obtain ⟨hfull, hpayload⟩ := Phrase.isEncodable_iff.mp (hp hmarked)
    exact ⟨hpayload, hencodable hfull⟩

/-- The keys of phrases that stand in a text as they are written. -/
lemma IsPlain.gives_resolveAll_phrases (h : b.IsPlain) (offset : Phrase → Nat) (ht : t.isEncodable) :
    Gives (Ledger.IsPlain strict) (b.resolveAll offset (b.extractor.delimiter.phrases t))
      fun resolved => ∀ x ∈ resolved, x.1.payload.isEncodable ∧ x.2.isEncodable :=
  h.gives_resolveAll offset fun _ hp _ => Delimiter.isEncodable_of_mem_phrases ht hp

lemma IsPlain.gives_plainTextSplices (h : b.IsPlain) (start stop : Nat) :
    Gives (Ledger.IsPlain strict) (b.plainTextSplices start stop) AreEncodable := by
  refine Gives.bind (h.gives_resolveAll_phrases _ (isEncodable_slice h.content start stop))
    fun resolved hresolved => .pure fun s hs => ?_
  obtain ⟨x, hx, rfl⟩ := mem_map.mp hs
  obtain ⟨hpayload, hkey⟩ := hresolved x hx
  have hlookup := h.isEncodable_lookup none hkey hpayload
    fun a ha => isEncodable_of_mem_informalArguments hpayload ha
  simp [hlookup]

/-- A string literal in an expression, if the phrases that are marked in it can be written out. -/
lemma IsPlain.gives_literalSplice (h : b.IsPlain) (quote : Option QuoteMark) (start : Nat)
    {expression : Text} (hexpression : expression.isEncodable) {span : Nat × Nat}
    (hclean : ∀ p ∈ b.literalPhrases expression span, p.isEncodable) :
    Gives (Ledger.IsPlain strict) (b.literalSplice quote start expression span) AreEncodable := by
  rw [literalSplice]
  rw [literalPhrases] at hclean
  split_ifs at hclean ⊢
  · exact .pure (forall_mem_nil _)
  · have hraw : (literalInside expression span).isEncodable := isEncodable_slice hexpression _ _
    simp only
    cases hdecode : decodeLiteral (expression.slice (span.1 + 1) (span.2 - 1)) with
    | error e => exact .throw
    | ok decoded =>
      rw [literalInside, hdecode] at hclean
      refine Gives.bind (h.gives_resolveAll _ fun p hp hmarked =>
        hclean p (mem_filter.mpr ⟨hp, hmarked⟩)) fun resolved hresolved => ?_
      split_ifs
      · exact .pure (forall_mem_nil _)
      · refine .pure fun s hs => ?_
        obtain rfl := mem_singleton.mp hs
        exact h.isEncodable_callOrTemplate quote (l := .quoted (literalInside expression span) decoded)
          hraw _ hresolved

lemma IsPlain.gives_staticSplice (h : b.IsPlain) (hname : a.name.isEncodable) :
    Gives (Ledger.IsPlain strict) (b.staticSplice a) AreEncodable := by
  have hvalue : (b.valueOf a).isEncodable := isEncodable_slice h.content _ _
  refine Gives.bind (h.gives_resolveAll_phrases _ hvalue) fun resolved hresolved => ?_
  split_ifs
  · exact .pure (forall_mem_nil _)
  · refine .pure fun s hs => ?_
    obtain rfl := mem_singleton.mp hs
    have hexpression := h.isEncodable_callOrTemplate (some a.quote) (l := .value (b.valueOf a)) hvalue
      (b.extractor.delimiter.phrases (b.valueOf a)) hresolved
    have hquote : a.quote.point.isSurrogate = false := by cases a.quote <;> rfl
    rw [valueOf] at hexpression
    simp [hname, hquote, hexpression]

lemma IsPlain.isEncodable_name (h : b.IsPlain) (ha : a ∈ b.attributes) : a.name.isEncodable := by
  obtain ⟨part, -, ha⟩ := mem_flatMap.mp ha
  cases part with
  | text => cases ha
  | tag start stop =>
    exact isEncodable_of_subset (name_subset_of_mem_attributesFrom ha)
      (isEncodable_slice h.content start stop)

/-- **The replacements in a template.** -/
theorem IsPlain.gives_steps (h : b.IsPlain) (hclean : ∀ p ∈ b.spelledPhrases, p.isEncodable)
    {x : Bookkeeping (List Splice)} (hx : b.Steps x) : Gives (Ledger.IsPlain strict) x AreEncodable := by
  induction hx with
  | nothing => exact .pure (forall_mem_nil _)
  | both _ _ hx hy =>
    exact hx.bind fun _ hfirst => hy.bind fun _ hsecond =>
      .pure (forall_mem_append.mpr ⟨hfirst, hsecond⟩)
  | text => exact h.gives_plainTextSplices _ _
  | literal hexpression hspan =>
    refine h.gives_literalSplice _ _ (isEncodable_slice h.content _ _) fun p hp => hclean p ?_
    exact mem_flatMap.mpr ⟨_, hexpression, mem_flatMap.mpr ⟨_, hspan, hp⟩⟩
  | value ha => exact h.gives_staticSplice (h.isEncodable_name ha)

/-- **The converted template** can be written out if the phrases in its string literals can. -/
theorem IsPlain.gives_convert (h : b.IsPlain) (hclean : ∀ p ∈ b.spelledPhrases, p.isEncodable) :
    Gives (Ledger.IsPlain strict) b.convert fun result => result.1.isEncodable = true := by
  intro l result l' hrun hplain
  obtain ⟨splices, hsplices, rfl⟩ := b.runs_convert.mp hrun
  obtain ⟨hplain', hencodable⟩ := h.gives_steps hclean (steps_splices b) l splices l' hsplices hplain
  exact ⟨hplain', isEncodable_spliceFrom h.content hencodable⟩

end Steps

end TemplateBlock

end Phrasebook
