import Phrasebook.Proofs.Component.Rewriting

/-!
# What becomes of a tag

In a tag the values of attributes are replaced, and an attribute with plain text is bound to an
expression instead.

## Main results

* `TemplateBlock.yields_attributeSplices` — what becomes of an attribute.
* `TemplateBlock.yields_tag` — where every quote of a tag belongs to an attribute, the tag is one again:
  its attributes stand in the same places, and it ends where it ended.
-/

namespace Phrasebook

open List Text

variable {attributes : List Attribute} {offset stop : Nat} {name r rest t u inner : Text}
  {a : Attribute} {c : CodePoint}

/-! ## Quotes in tags -/

/-- The quotes of a tag can be read piece by piece. -/
lemma openQuote?_append (quote : Option CodePoint) (u v : Text) :
    openQuote? quote (u ++ v) = (openQuote? quote u).bind fun quote' => openQuote? quote' v := by
  induction u generalizing quote with
  | nil => rfl
  | cons c u ih =>
    rw [cons_append]
    cases quote with
    | some q => rw [openQuote?, openQuote?, ih]
    | none =>
      rw [openQuote?, openQuote?]
      split_ifs
      · exact ih (some c)
      · rfl
      · exact ih none

lemma openQuote?_of_unquoted (h : Unquoted t) (hsome : (openQuote? none t).isSome) :
    openQuote? none t = some none := by
  induction t with
  | nil => rfl
  | cons c t ih =>
    obtain ⟨hc, ht⟩ := forall_mem_cons.mp h
    rw [openQuote?] at hsome ⊢
    simp only [hc, Bool.false_eq_true, if_false] at hsome ⊢
    split_ifs at hsome ⊢
    · cases hsome
    · exact ih ht hsome

/-- What stands behind a text without quotes decides which quote is open. -/
lemma openQuote?_unquoted_append {t' : Text} (hu : Unquoted u) (h : openQuote? none t' = openQuote? none t) :
    openQuote? none (u ++ t') = openQuote? none (u ++ t) := by
  rw [openQuote?_append, openQuote?_append]
  cases hopen : openQuote? none u with
  | none => rfl
  | some quote =>
    have hnone := openQuote?_of_unquoted hu (by rw [hopen]; rfl)
    obtain rfl := Option.some.inj (hopen.symm.trans hnone)
    exact h

/-- Characters that neither open a quote nor close a tag. -/
lemma openQuote?_of_plain (h : ∀ c ∈ t, c.isQuote = false ∧ c.closesTag = false) :
    openQuote? none t = some none := by
  refine openQuote?_of_unquoted (fun c hc => (h c hc).1) ?_
  induction t with
  | nil => rfl
  | cons c t ih =>
    obtain ⟨⟨hquote, hclose⟩, ht⟩ := forall_mem_cons.mp h
    rw [openQuote?]
    simp only [hquote, hclose, Bool.false_eq_true, if_false]
    exact ih ht

/-- A quote is open until it stands again. -/
lemma openQuote?_inside {q : CodePoint} (h : ∀ c ∈ t, c ≠ q) : openQuote? (some q) t = some (some q) := by
  induction t with
  | nil => rfl
  | cons c t ih =>
    obtain ⟨hc, ht⟩ := forall_mem_cons.mp h
    rw [openQuote?, if_neg (by simpa using hc)]
    exact ih ht

/-- An attribute closes the quote that it opens. -/
lemma AttributeText.openQuote?_text (a : AttributeText) : openQuote? none a.text = some none := by
  have hopening : openQuote? none (a.name ++ a.before ++ [.scalar '='] ++ a.after) = some none := by
    refine openQuote?_of_plain fun c hc => ?_
    have hblank : ∀ {c : CodePoint}, c.isBlank → c.isQuote = false ∧ c.closesTag = false := by
      intro c hc
      constructor
      · by_contra hquote
        rw [Bool.not_eq_false, CodePoint.isQuote, Bool.or_eq_true, beq_iff_eq, beq_iff_eq] at hquote
        rcases hquote with rfl | rfl <;> exact absurd hc (by decide)
      · by_contra hclose
        rw [Bool.not_eq_false, CodePoint.closesTag, beq_iff_eq] at hclose
        subst hclose
        exact absurd hc (by decide)
    simp only [mem_append, mem_singleton] at hc
    rcases hc with ((hc | hc) | rfl) | hc
    · have hname := a.name_mem c hc
      simp only [CodePoint.isAttributeName, Bool.not_eq_true', Bool.or_eq_false_iff] at hname
      exact ⟨hname.1.1.1.2, hname.2⟩
    · exact hblank (a.blank_before c hc)
    · decide
    · exact hblank (a.blank_after c hc)
  have hquote : openQuote? none [a.quote.point] = some (some a.quote.point) := by
    cases a.quote <;> decide
  have hclose : openQuote? (some a.quote.point) [a.quote.point] = some none := by
    cases a.quote <;> decide
  rw [text, opening, openQuote?_append, openQuote?_append, openQuote?_append, hopening,
    Option.bind_some, hquote, Option.bind_some, openQuote?_inside a.value_mem, Option.bind_some, hclose]

/-! ## The name of a tag -/

/-- Whether a character belongs to the name of a tag. -/
def inTagName (c : CodePoint) : Bool := !(c.isBlank || c == '>' || c == '/')

/-- The length of the name in a closing tag. -/
lemma tagNameLength_closing (hname : ∀ c ∈ name, inTagName c) (hrest : ∀ c ∈ rest.head?, inTagName c = false) :
    tagNameLength ('<' :: '/' :: (name ++ rest)) = 2 + name.length := by
  have hrun : (name ++ rest).takeWhile inTagName = name := takeWhile_append_of_head hname hrest
  have hstarts : Text.startsWith ('<' :: '/' :: (name ++ rest)) "</" :=
    startsWith_iff.mpr ⟨_, rfl⟩
  rw [tagNameLength, hstarts]
  exact congrArg (fun t => 2 + List.length t) hrun

lemma tagNameLength_opening (hname : ∀ c ∈ name, inTagName c) (hrest : ∀ c ∈ rest.head?, inTagName c = false)
    (hslash : (name ++ rest).head? ≠ some '/') :
    tagNameLength ('<' :: (name ++ rest)) = 1 + name.length := by
  have hrun : (name ++ rest).takeWhile inTagName = name := takeWhile_append_of_head hname hrest
  have hstarts : Text.startsWith ('<' :: (name ++ rest)) "</" = false := by
    by_contra hstarts
    obtain ⟨r, hr⟩ := startsWith_iff.mp (Bool.not_eq_false _ ▸ hstarts)
    obtain ⟨-, htail⟩ := List.cons.inj hr
    refine hslash ?_
    rw [htail]
    rfl
  rw [tagNameLength, hstarts]
  exact congrArg (fun t => 1 + List.length t) hrun

/-- What ends the name of a tag does not belong to the name of an attribute. -/
lemma isAttributeName_of_inTagName (h : inTagName c = false) : c.isAttributeName = false := by
  simp only [inTagName, Bool.not_eq_false', Bool.or_eq_true] at h
  simp only [CodePoint.isAttributeName, Bool.not_eq_false', Bool.or_eq_true]
  tauto

/-- The head of what is left behind a run does not belong to it. -/
lemma head?_dropWhile {p : CodePoint → Bool} : ∀ c ∈ (t.dropWhile p).head?, p c = false := by
  intro c hc
  have hnot := head?_dropWhile_not p t
  rw [Option.mem_def.mp hc] at hnot
  exact hnot

/-- **The name of a tag** ends where something else begins, and does not depend on more than that. -/
theorem exists_tagName (inner : Text) : ∃ name rest : Text, inner = name ++ rest ∧
    name.length + 1 = tagNameLength ('<' :: inner) ∧
    (∀ c ∈ rest.head?, inTagName c = false) ∧
    ∀ rest' : Text, rest'.head? = rest.head? →
      tagNameLength ('<' :: (name ++ rest')) = name.length + 1 := by
  by_cases hslash : inner.head? = some '/'
  · obtain ⟨inner, rfl⟩ := head?_eq_some_iff.mp hslash
    have hname : ∀ c ∈ inner.takeWhile inTagName, inTagName c := fun c => mem_takeWhile_imp
    have hlength : ∀ rest' : Text, rest'.head? = (inner.dropWhile inTagName).head? →
        tagNameLength ('<' :: '/' :: (inner.takeWhile inTagName ++ rest')) =
          (.scalar '/' :: inner.takeWhile inTagName).length + 1 := by
      intro rest' hhead
      rw [tagNameLength_closing hname (by rw [hhead]; exact head?_dropWhile), length_cons]
      omega
    refine ⟨'/' :: inner.takeWhile inTagName, inner.dropWhile inTagName, ?_, ?_, head?_dropWhile,
      hlength⟩
    · rw [cons_append, takeWhile_append_dropWhile]
    · rw [← hlength _ rfl, takeWhile_append_dropWhile]
  · have hname : ∀ c ∈ inner.takeWhile inTagName, inTagName c := fun c => mem_takeWhile_imp
    have hlength : ∀ rest' : Text, rest'.head? = (inner.dropWhile inTagName).head? →
        tagNameLength ('<' :: (inner.takeWhile inTagName ++ rest')) =
          (inner.takeWhile inTagName).length + 1 := by
      intro rest' hhead
      rw [tagNameLength_opening hname (by rw [hhead]; exact head?_dropWhile) ?_, Nat.add_comm]
      -- the first character is the same
      have hsame : (inner.takeWhile inTagName ++ rest').head? = inner.head? := by
        conv_rhs => rw [← takeWhile_append_dropWhile (p := inTagName) (l := inner)]
        rw [head?_append, head?_append, hhead]
      rwa [hsame]
    refine ⟨inner.takeWhile inTagName, inner.dropWhile inTagName, ?_, ?_, head?_dropWhile, hlength⟩
    · rw [takeWhile_append_dropWhile]
    · rw [← hlength _ rfl, takeWhile_append_dropWhile]

/-- A tag does not become the beginning of a comment when something is changed behind its name. -/
lemma not_startsWith_comment {rest' : Text}
    (hopening : ¬ Text.startsWith ('<' :: (name ++ rest)) commentOpening)
    (hrest : ∀ c ∈ rest'.head?, inTagName c = false) :
    ¬ Text.startsWith ('<' :: (name ++ rest')) commentOpening := by
  intro hstarts
  obtain ⟨r, hr⟩ := startsWith_iff.mp hstarts
  obtain ⟨-, htail⟩ := List.cons.inj hr
  let dashes : Text := ['!', '-', '-']
  rcases append_eq_append_iff.mp (show name ++ rest' = dashes ++ r from htail) with
    ⟨x, hx, hrest'⟩ | ⟨x, hx, -⟩
  · cases x with
    | nil =>
      rw [append_nil] at hx
      exact hopening (startsWith_iff.mpr ⟨rest, by rw [← hx]; rfl⟩)
    | cons c x =>
      -- what follows the name would belong to it
      have hc : c ∈ dashes := by
        rw [hx]
        simp
      have hin : inTagName c := (by decide : ∀ c ∈ dashes, inTagName c) c hc
      rw [hrest c (by rw [hrest']; rfl)] at hin
      cases hin
  · refine hopening (startsWith_iff.mpr ⟨x ++ rest, ?_⟩)
    rw [hx, append_assoc]
    rfl

namespace TemplateBlock

variable {b : TemplateBlock} {keys : List Key}

/-! ## Attributes -/

/-- An attribute in which something is replaced. -/
def MarkedAttribute (b : TemplateBlock) (a : Attribute) : Prop :=
  if a.isBound then ∃ span decoded, b.MarkedLiteral (b.valueOf a) span decoded
  else b.extractor.delimiter.marked (b.valueOf a) ≠ []

instance (a : Attribute) : Decidable (b.MarkedAttribute a) :=
  decidable_of_iff (if a.isBound then ¬ ∀ span decoded, b.MarkedLiteral (b.valueOf a) span decoded → False
      else b.extractor.delimiter.marked (b.valueOf a) ≠ []) (by simp [MarkedAttribute])

/-- An attribute whose phrases can be replaced. -/
@[mk_iff]
structure IsTameAttribute (b : TemplateBlock) (keys : List Key) (a : Attribute) : Prop where
  /-- In an expression every quote belongs to a literal, and the literals can be replaced. -/
  bound : a.isBound = true → b.IsTameExpression (some a.quote) keys (b.valueOf a)
  plain : a.isBound = false → b.extractor.delimiter.marked (b.valueOf a) ≠ [] →
    b.IsTameLiteral (some a.quote) keys (.value (b.valueOf a))

instance (a : Attribute) : Decidable (b.IsTameAttribute keys a) :=
  decidable_of_iff _ (isTameAttribute_iff b keys a).symm

/-- An attribute without marked phrases gets no replacement, and its value is settled. -/
lemma settled_of_runs {l l' : Ledger} {out : List Splice}
    (hrun : Runs (b.attributeSplices a) l out l') (hnone : ¬ b.MarkedAttribute a) :
    out = [] ∧ if a.isBound then b.marking.ExpressionSettled (b.valueOf a)
      else b.marking.delimiter.IsSilent (b.valueOf a) := by
  rw [MarkedAttribute] at hnone
  rw [attributeSplices] at hrun
  split_ifs at hnone hrun ⊢ with hbound
  · exact expressionSettled_of_runs hrun fun span decoded h => hnone ⟨span, decoded, h⟩
  · obtain ⟨resolved, -, hresolved, rfl⟩ := runs_staticSplice hrun
    rw [ne_eq, not_not] at hnone
    have hnil : resolved.map Prod.fst = [] := hresolved.phrases_eq.trans hnone
    rw [map_eq_nil_iff.mp hnil]
    exact ⟨rfl, Delimiter.isSilent_of_marked_eq_nil hnone⟩

/-- An attribute with another value. -/
def withValue (a : AttributeText) (value : Text) (h : ∀ c ∈ value, c ≠ a.quote.point) : AttributeText :=
  { a with value := value, value_mem := h }

/-- An attribute that is bound to an expression. -/
def boundTo (a : AttributeText) (value : Text) (h : ∀ c ∈ value, c ≠ a.quote.point) : AttributeText where
  name := ':' :: a.name
  before := []
  after := []
  quote := a.quote
  value := value
  name_ne := cons_ne_nil _ _
  name_mem := forall_mem_cons.mpr ⟨by decide, a.name_mem⟩
  blank_before := forall_mem_nil _
  blank_after := forall_mem_nil _
  value_mem := h

/-- **What becomes of an attribute**: it is left alone, or its value is replaced, or it is bound to an
expression; in each case it is an attribute again, and settled. -/
theorem yields_attributeSplices (hcall : IsCallName b.callName) {a : AttributeText}
    (hcontent : b.content = u ++ (a.text ++ r)) (hoffset : offset = u.length)
    (htame : b.IsTameAttribute keys (a.placed offset)) :
    b.Yields keys offset (offset + a.text.length) (b.attributeSplices (a.placed offset)) fun t =>
      ∃ a' : AttributeText, t = a'.text ∧ b.marking.ValueSettled a' := by
  have hlength : a.text.length = a.opening.length + a.value.length + 1 := by
    simp only [AttributeText.text, length_append, length_singleton]
  have hcontentLength : b.content.length = u.length + (a.text.length + r.length) := by
    rw [hcontent, length_append, length_append]
  have hvalue : b.content.slice (offset + a.opening.length)
      (offset + a.opening.length + a.value.length) = a.value :=
    slice_of_eq (u := u ++ a.opening) (r := [a.quote.point] ++ r)
      (by rw [hcontent]; simp [AttributeText.text]) (by rw [length_append, hoffset]) rfl
  rw [attributeSplices]
  split_ifs with hbound
  · have hopening : b.content.slice offset (offset + a.opening.length) = a.opening :=
      slice_of_eq (r := a.value ++ [a.quote.point] ++ r)
        (by rw [hcontent]; simp [AttributeText.text]) hoffset rfl
    have hclosing : b.content.slice (offset + a.opening.length + a.value.length)
        (offset + a.text.length) = [a.quote.point] :=
      slice_of_eq (u := u ++ a.opening ++ a.value) (r := r)
        (by rw [hcontent]; simp [AttributeText.text])
        (by rw [length_append, length_append, hoffset]) (by simp [hlength]; omega)
    have hwell : WellPlaced (some a.quote) a.value :=
      ⟨fun q hq hmem => a.value_mem _ hmem (by rw [Option.mem_some.mp hq]),
        fun hnone => absurd hnone (Option.some_ne_none _), fun hnone => absurd hnone (Option.some_ne_none _)⟩
    have hyields := yields_expressionSplices hcall
      (show offset + a.opening.length ≤ offset + a.opening.length + a.value.length by omega) (by omega)
      (by rwa [hvalue]) (htame.bound hbound)
    have hall := (hyields.advance (show offset ≤ offset + a.opening.length by omega)).extend
      (show offset + a.opening.length + a.value.length ≤ offset + a.text.length by omega)
    refine hall.imp ?_
    rintro t ⟨-, rfl, e, rfl, hsettled, hwell'⟩
    rw [hopening, hclosing]
    refine ⟨withValue a e fun c hc heq => hwell'.inside a.quote rfl (heq ▸ hc), rfl, ?_⟩
    rw [Marking.ValueSettled, if_pos (show (withValue a e _).isBound = true from hbound)]
    exact hsettled
  · intro l out l' hrun hkeys
    have hstatic : (a.placed offset).isBound = false := by simpa using hbound
    obtain ⟨resolved, hgrow, hresolved, rfl⟩ := runs_staticSplice hrun
    have hvalueOf : b.valueOf (a.placed offset) = a.value := hvalue
    have hmarked : resolved.map Prod.fst = b.extractor.delimiter.marked (b.valueOf (a.placed offset)) :=
      hresolved.phrases_eq
    refine ⟨List.Subset.trans hgrow hkeys, ?_⟩
    split_ifs with hnil
    · -- nothing is marked
      rw [List.isEmpty_iff.mp hnil, map_nil, hvalueOf] at hmarked
      refine ⟨Nat.le_add_right _ _, a, slice_of_eq hcontent hoffset rfl, ?_⟩
      rw [Marking.ValueSettled, if_neg (show ¬ a.isBound = true from hbound)]
      exact Delimiter.isSilent_of_marked_eq_nil hmarked.symm
    · have hne : b.extractor.delimiter.marked (b.valueOf (a.placed offset)) ≠ [] := by
        rw [← hmarked]
        simpa using hnil
      have hfit := (htame.plain hstatic hne).fit hcall (hresolved.mono hkeys)
      rw [spliceOfAttribute, a.stop_placed]
      refine ⟨⟨le_refl _, ?_, le_refl _⟩,
        boundTo a _ fun c hc heq => hfit.inside a.quote rfl (heq ▸ hc), ?_, ?_⟩
      · change offset < offset + a.text.length
        omega
      · rw [show (a.placed offset).start = offset from rfl, patched_whole]
        simp only [AttributeText.text, AttributeText.opening, boundTo, append_assoc]
        rfl
      · rw [Marking.ValueSettled, if_pos (by rfl)]
        exact hfit.quiet.expressionSettled

/-! ## Attributes one behind the other -/

end TemplateBlock

/-- Without quotes there are no attributes. -/
lemma barren_of_unquoted {gap : Text} (h : Unquoted gap) (offset : Nat) :
    Barren attributeIn? offset gap [] := by
  rintro u v rfl -
  rw [attributeIn?, Option.map_eq_none_iff, append_nil]
  by_contra hsome
  obtain ⟨a, ha⟩ := Option.ne_none_iff_exists'.mp hsome
  obtain ⟨text, s, rfl, -⟩ := exists_of_attributeAt? ha
  have hquote := h text.quote.point (by simp [AttributeText.text])
  rw [text.quote.isQuote_point] at hquote
  cases hquote

namespace Marking

variable {m : Marking}

/-- **Attributes in the place of others**, with the same texts between them, which have no quotes. -/
inductive Renewed (m : Marking) : Text → Text → Prop where
  | gap {g : Text} (hg : Unquoted g) : Renewed m g g
  /-- A settled attribute in the place of another one, and what follows. -/
  | found {g rest rest' : Text} {a a' : AttributeText} (hg : Unquoted g)
      (hlast : ∀ c ∈ g.getLast?, c.isAttributeName = false) (ha : m.ValueSettled a')
      (hrest : Renewed m rest rest') :
    Renewed m (g ++ (a.text ++ rest)) (g ++ (a'.text ++ rest'))

namespace Renewed

variable {t t' : Text}

/-- All attributes of a renewed tag are settled. -/
lemma attributesSettled (h : m.Renewed t t') : m.AttributesSettled t' := by
  induction h with
  | gap hg => exact .gap (barren_of_unquoted hg 0)
  | found hg hlast ha hrest ih =>
    exact .found (barren_attributeIn? hg hlast (AttributeText.head_text _ _) 0) ha ih

/-- If an attribute does not stand at the beginning, the first character is the same. -/
lemma head?_eq (h : m.Renewed t t') (hhead : ∀ c ∈ t.head?, c.isAttributeName = false) :
    t'.head? = t.head? := by
  cases h with
  | gap => rfl
  | @found g rest rest' a a' hg hlast ha hrest =>
    cases g with
    | cons c g => rfl
    | nil =>
      obtain ⟨c, r, hr⟩ : ∃ c r, a.text ++ rest = c :: r :=
        exists_cons_of_ne_nil (by simp [AttributeText.text])
      have hc : (a.text ++ rest).head? = some c := by rw [hr, head?_cons]
      exact absurd (a.head_text rest c hc) (by rw [hhead c hc]; decide)

/-- A quote is open behind the new attributes if one is open behind the others. -/
lemma openQuote?_eq (h : m.Renewed t t') : openQuote? none t' = openQuote? none t := by
  induction h with
  | gap => rfl
  | @found g rest rest' a a' hg hlast ha hrest ih =>
    refine openQuote?_unquoted_append hg ?_
    simp only [openQuote?_append, AttributeText.openQuote?_text, Option.bind_some, ih]

/-- What follows the last attribute is the same. -/
lemma exists_concat (h : m.Renewed (t ++ [c]) t') (hc : c.isQuote = false) :
    ∃ u, t' = u ++ [c] ∧ m.Renewed t u := by
  generalize hs : t ++ [c] = s at h
  induction h generalizing t with
  | gap hg => exact ⟨t, hs.symm, .gap (forall_mem_append.mp (hs ▸ hg)).1⟩
  | @found g rest rest' a a' hg hlast ha hrest ih =>
    rcases eq_nil_or_concat rest with rfl | ⟨rest₀, d, rfl⟩
    · -- an attribute ends with a quote
      have hquote := congrArg List.getLast? hs
      rw [append_nil, AttributeText.text, ← append_assoc, getLast?_concat,
        getLast?_concat, Option.some.injEq] at hquote
      rw [hquote, a.quote.isQuote_point] at hc
      cases hc
    · rw [concat_eq_append, ← append_assoc, ← append_assoc] at hs
      obtain ⟨rfl, hd⟩ := append_inj' hs rfl
      obtain rfl := singleton_inj.mp hd
      obtain ⟨u, rfl, hu⟩ := ih (concat_eq_append).symm
      refine ⟨g ++ (a'.text ++ u), by simp only [append_assoc], ?_⟩
      rw [append_assoc]
      exact .found hg hlast ha hu

end Renewed

/-- **A tag in the place of another one**, with the same name. -/
structure RenewedTag (m : Marking) (name rest rest' : Text) : Prop where
  unquoted : Unquoted name
  head : ∀ c ∈ rest.head?, inTagName c = false
  head_eq : rest'.head? = rest.head?
  attributes : m.Renewed rest rest'

namespace RenewedTag

variable {name rest rest' : Text}

/-- No tag becomes a comment when it is renewed. -/
lemma not_startsWith (h : m.RenewedTag name rest rest')
    (hopening : ¬ Text.startsWith ('<' :: (name ++ rest)) commentOpening) :
    ¬ Text.startsWith ('<' :: (name ++ rest')) commentOpening :=
  not_startsWith_comment hopening (by rw [h.head_eq]; exact h.head)

/-- A renewed tag is closed by its last bracket alone. -/
lemma exists_closed (h : m.RenewedTag name rest rest')
    (hsplit : name ++ rest = inner ++ [.scalar '>']) (hinner : openQuote? none inner = some none) :
    ∃ inner', name ++ rest' = inner' ++ [.scalar '>'] ∧ openQuote? none inner' = some none := by
  rcases eq_nil_or_concat rest with rfl | ⟨rest₀, d, rfl⟩
  · have hnil : rest' = [] := head?_eq_none_iff.mp h.head_eq
    exact ⟨inner, by rw [hnil, hsplit], hinner⟩
  · rw [concat_eq_append, ← append_assoc] at hsplit
    obtain ⟨rfl, hd⟩ := append_inj' hsplit rfl
    obtain rfl := singleton_inj.mp hd
    have hattributes := h.attributes
    rw [concat_eq_append] at hattributes
    obtain ⟨u, rfl, hu⟩ := hattributes.exists_concat (by decide)
    refine ⟨name ++ u, by rw [append_assoc], ?_⟩
    rw [openQuote?_unquoted_append h.unquoted hu.openQuote?_eq, hinner]

end RenewedTag

end Marking

namespace TemplateBlock

variable {b : TemplateBlock} {keys : List Key}

/-- What becomes of attributes one behind the other. -/
lemma yields_attributes (hcall : IsCallName b.callName) (hscanned : Scanned attributeIn? offset t attributes)
    (hcontent : b.content = u ++ (t ++ r)) (hoffset : offset = u.length) (hstop : stop = offset + t.length)
    (htame : ∀ a ∈ attributes, b.IsTameAttribute keys a)
    (houtside : Unquoted (outside b.content offset stop (attributes.map Attribute.span))) :
    b.Yields keys offset stop (gather b.attributeSplices attributes) (b.marking.Renewed t) := by
  induction hscanned generalizing u with
  | @done offset gap hgap =>
    have hslice := slice_of_eq hcontent hoffset hstop
    refine Yields.pure_nil (by omega) ?_
    rw [hslice]
    exact .gap (hslice ▸ houtside)
  | @found offset gap v rest x xs hgap hne hfind hrest ih =>
    obtain ⟨a, rfl, rfl⟩ := exists_of_attributeIn? hfind
    obtain ⟨ha, hothers⟩ := forall_mem_cons.mp htame
    have hgapSlice : b.content.slice offset (offset + gap.length) = gap :=
      slice_of_eq (r := a.text ++ rest ++ r) (by rw [hcontent]; simp) hoffset rfl
    obtain ⟨hgapUnquoted, houtside'⟩ : Unquoted gap ∧
        Unquoted (outside b.content (offset + gap.length + a.text.length) stop
          (xs.map Attribute.span)) := by
      simp only [outside, map_cons, patched, Attribute.span, a.stop_placed, append_nil]
        at houtside
      rw [show (a.placed (offset + gap.length)).start = offset + gap.length from rfl, hgapSlice]
        at houtside
      exact forall_mem_append.mp houtside
    have hhere := yields_attributeSplices hcall (u := u ++ gap) (r := rest ++ r)
      (by rw [hcontent]; simp) (by rw [length_append, hoffset]) ha
    have hthere := ih (u := u ++ gap ++ a.text) (by rw [hcontent]; simp)
      (by simp only [length_append]; omega)
      (by rw [hstop]; simp only [length_append]; omega) hothers houtside'
    rw [gather_cons]
    refine ((hhere.both hthere).advance (Nat.le_add_right offset gap.length)).imp ?_
    rintro t' ⟨-, rfl, -, rest', rfl, ⟨a', rfl, ha'⟩, hrenewed⟩
    rw [hgapSlice]
    exact .found hgapUnquoted (last_of_barren hgap) ha' hrenewed

/-- The attributes of a tag are settled if each of them is. -/
lemma attributesSettled_of_scanned (hscanned : Scanned attributeIn? offset t attributes)
    (hcontent : b.content = u ++ (t ++ r)) (hoffset : offset = u.length)
    (hsettled : ∀ a ∈ attributes, if a.isBound then b.marking.ExpressionSettled (b.valueOf a)
      else b.marking.delimiter.IsSilent (b.valueOf a)) :
    b.marking.AttributesSettled t := by
  induction hscanned generalizing u with
  | done hgap => exact .gap (hgap.move movable_attributeIn? 0)
  | @found offset gap v rest x xs hgap hne hfind hrest ih =>
    obtain ⟨a, rfl, rfl⟩ := exists_of_attributeIn? hfind
    obtain ⟨ha, hothers⟩ := forall_mem_cons.mp hsettled
    have hvalue : b.valueOf (a.placed (offset + gap.length)) = a.value :=
      slice_of_eq (u := u ++ gap ++ a.opening) (r := [a.quote.point] ++ rest ++ r)
        (by rw [hcontent]; simp [AttributeText.text])
        (by simp only [AttributeText.placed, length_append]; omega) rfl
    rw [hvalue] at ha
    exact .found (hgap.move movable_attributeIn? 0) ha
      (ih (u := u ++ gap ++ a.text) (by rw [hcontent]; simp)
        (by simp only [length_append]; omega) hothers)

/-- Attributes begin behind the beginning of the text that they are in. -/
lemma le_start_of_scanned (hscanned : Scanned attributeIn? offset t attributes)
    (ha : a ∈ attributes) : offset ≤ a.start := by
  induction hscanned with
  | done => exact absurd ha not_mem_nil
  | @found offset gap v rest x xs hgap hne hfind hrest ih =>
    obtain ⟨text, rfl, rfl⟩ := exists_of_attributeIn? hfind
    rcases mem_cons.mp ha with rfl | ha
    · exact Nat.le_add_right _ _
    · have := ih ha
      omega

/-- **What becomes of a tag.**

**Proof sketch.** If no attribute is marked nothing is replaced, and the attributes have been settled.
Otherwise the attributes behind the name are renewed, which does not change where the name ends. -/
theorem yields_tag (hcall : IsCallName b.callName)
    (hcontent : b.content = u ++ (.scalar '<' :: inner ++ r)) (hoffset : offset = u.length)
    (hstop : stop = offset + ('<' :: inner : Text).length)
    (htame : ∀ a ∈ attributesOf offset ('<' :: inner), b.IsTameAttribute keys a)
    (hquotes : (∃ a ∈ attributesOf offset ('<' :: inner), b.MarkedAttribute a) →
      Unquoted (outside b.content offset stop
        ((attributesOf offset ('<' :: inner)).map Attribute.span))) :
    b.Yields keys offset stop (gather b.attributeSplices (attributesOf offset ('<' :: inner)))
      fun t => b.marking.TagSettled t ∧ (t = .scalar '<' :: inner ∨
        ∃ name rest rest', inner = name ++ rest ∧ t = .scalar '<' :: (name ++ rest') ∧
          b.marking.RenewedTag name rest rest') := by
  obtain ⟨name, rest, rfl, hlength, hhead, hname⟩ := exists_tagName inner
  have hopening : ('<' :: name : Text).length = tagNameLength ('<' :: (name ++ rest)) :=
    hlength
  have hattributes : attributesOf offset ('<' :: (name ++ rest)) =
      attributesFrom (offset + (name.length + 1)) 0 rest := attributesOf_append offset hopening
  have hscanned := scanned_attributes (offset + (name.length + 1)) rest
  have hrest : b.content = (u ++ (.scalar '<' :: name)) ++ (rest ++ r) := by rw [hcontent]; simp
  have hplace : offset + (name.length + 1) = (u ++ (.scalar '<' :: name)).length := by
    rw [length_append, length_cons, hoffset]
  have hend : stop = offset + (name.length + 1) + rest.length := by
    rw [hstop, length_cons, length_append]
    omega
  have hnameSlice : b.content.slice offset (offset + (name.length + 1)) = .scalar '<' :: name :=
    slice_of_eq (r := rest ++ r) (by rw [hcontent]; simp) hoffset rfl
  rw [hattributes] at htame hquotes ⊢
  by_cases hmarked : ∃ a ∈ attributesFrom (offset + (name.length + 1)) 0 rest, b.MarkedAttribute a
  · have houtside := hquotes hmarked
    have hbehind : ∀ s ∈ ((attributesFrom (offset + (name.length + 1)) 0 rest).map Attribute.span).map
        (fun span => (⟨span.1, span.2, []⟩ : Splice)), offset + (name.length + 1) ≤ s.start := by
      simp only [map_map, forall_mem_map]
      exact fun a ha => le_start_of_scanned hscanned ha
    rw [outside, patched_advance _ (Nat.le_add_right _ _) (by omega) hbehind, hnameSlice] at houtside
    obtain ⟨hunquoted, houtside⟩ := forall_mem_append.mp houtside
    have hyields := yields_attributes hcall hscanned hrest hplace hend htame houtside
    refine (hyields.advance (Nat.le_add_right _ _)).imp ?_
    rintro t ⟨rest', rfl, hrenewed⟩
    rw [hnameSlice]
    have hsame : rest'.head? = rest.head? := hrenewed.head?_eq fun c hc =>
      isAttributeName_of_inTagName (hhead c hc)
    refine ⟨⟨'<' :: name, rest', rfl, ?_, hrenewed.attributesSettled⟩,
      .inr ⟨name, rest, rest', rfl, rfl, (forall_mem_cons.mp hunquoted).2, hhead, hsame, hrenewed⟩⟩
    exact (hname rest' hsame).symm
  · intro l out l' hrun hkeys
    have hnil : out = [] := by
      refine eq_nil_iff_forall_not_mem.mpr fun s hs => ?_
      obtain ⟨a, ha, m, out', m', hrun', hs⟩ := exists_run_of_mem_gather hrun hs
      rw [(settled_of_runs hrun' fun h => hmarked ⟨a, ha, h⟩).1] at hs
      exact absurd hs not_mem_nil
    have hwhole : b.content.slice offset stop = .scalar '<' :: (name ++ rest) :=
      slice_of_eq hcontent hoffset hstop
    have hfills := b.fills_partSplices
      (show (Part.tag offset stop).span.1 ≤ (Part.tag offset stop).span.2 by simp only [Part.span]; omega)
    rw [partSplices, hwhole, hattributes] at hfills
    rw [(hfills l out l' hrun).2 hnil] at hkeys
    subst hnil
    refine ⟨hkeys, by simp only [InOrder]; omega, ?_, .inl hwhole⟩
    rw [patched, hwhole]
    refine ⟨'<' :: name, rest, rfl, hopening,
      attributesSettled_of_scanned hscanned hrest hplace fun a ha => ?_⟩
    obtain ⟨m, out', m', hrun', -⟩ := exists_run_of_gather ha hrun
    exact (settled_of_runs hrun' fun h => hmarked ⟨a, ha, h⟩).2

end TemplateBlock

end Phrasebook
