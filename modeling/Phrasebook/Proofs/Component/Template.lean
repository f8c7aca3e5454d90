import Phrasebook.Component.Template
import Phrasebook.Proofs.Edit.Weave
import Phrasebook.Proofs.Message.Bookkeeping
import Phrasebook.Proofs.Pattern.Hits

/-!
# The replacements in a template

Each step of the conversion of a template looks at a span of it, and gives replacements in that span,
in order. A step that gives none has recorded nothing. Steps for spans that follow each other can be
put together. The replacements are made from the last to the first, which in this order leaves every
span where it is.

## Main results

* `Fills.gather` — steps for things that follow each other.
* `TemplateBlock.fills_splices` — the replacements in a template stand in order.
* `TemplateBlock.rewrite_eq`, `TemplateBlock.runs_convert` — what making them gives.
-/

namespace Phrasebook

open List Text

variable {l l' : Ledger} {out : List Splice} {start stop : Nat} {phrases : List Phrase} {α : Type}

/-- A step that gives replacements in order between two offsets, and leaves the books alone if it
gives none. -/
def Fills (start stop : Nat) (x : Bookkeeping (List Splice)) : Prop :=
  ∀ l out l', Runs x l out l' → InOrder stop start out ∧ (out = [] → l' = l)

namespace Fills

variable {start stop : Nat} {x y : Bookkeeping (List Splice)}

lemma pure_nil (h : start ≤ stop) : Fills start stop (pure []) := by
  intro l out l' hrun
  obtain ⟨rfl, rfl⟩ := runs_pure.mp hrun
  exact ⟨h, fun _ => rfl⟩

lemma of_le {start' stop' : Nat} (hstart : start' ≤ start) (hstop : stop ≤ stop')
    (h : Fills start stop x) : Fills start' stop' x := by
  intro l out l' hrun
  obtain ⟨hord, hbooks⟩ := h l out l' hrun
  exact ⟨(hord.of_le hstart).of_limit_le hstop, hbooks⟩

lemma append {middle : Nat} (hx : Fills start middle x) (hy : Fills middle stop y) :
    Fills start stop (do return (← x) ++ (← y)) := by
  intro l out l' hrun
  obtain ⟨a, m, b, ha, hb, rfl⟩ := runs_bind_bind_pure hrun
  obtain ⟨horda, hbooksa⟩ := hx l a m ha
  obtain ⟨hordb, hbooksb⟩ := hy m b l' hb
  refine ⟨hordb.append horda, fun hnil => ?_⟩
  obtain ⟨ha', hb'⟩ := append_eq_nil_iff.mp hnil
  rw [hbooksb hb', hbooksa ha']

/-- **Steps for things that follow each other.** -/
theorem gather {span : α → Nat × Nat} {step : α → Bookkeeping (List Splice)} :
    ∀ {xs : List α} {cursor : Nat}, Follow span stop cursor xs →
      (∀ a ∈ xs, (span a).1 ≤ (span a).2 → Fills (span a).1 (span a).2 (step a)) →
      Fills cursor stop (TemplateBlock.gather step xs)
  | [], _, hfollow, _ => pure_nil hfollow
  | a :: rest, cursor, ⟨hstart, hle, hfollow⟩, hstep => by
    have hhere := hstep a mem_cons_self hle
    have hrest := gather hfollow fun b hb => hstep b (mem_cons_of_mem a hb)
    exact (hhere.of_le hstart (le_refl _)).append hrest

end Fills

/-! ## Where phrases are looked for -/

/-- The spans from `cursor` to `stop` between the expressions in a text. -/
def plainSpans (cursor stop : Nat) : List (Nat × Nat) → List (Nat × Nat)
  | [] => [(cursor, stop)]
  | (first, last) :: rest => (cursor, first - 2) :: plainSpans (last + 2) stop rest

/-- The inside of a string literal in an expression. -/
def literalInside (expression : Text) (span : Nat × Nat) : Text :=
  expression.slice (span.1 + 1) (span.2 - 1)

namespace TemplateBlock

variable (b : TemplateBlock)

/-- The expressions in the text of a part. -/
def mustachesIn : Part → List (Nat × Nat)
  | .tag _ _ => []
  | .text start stop => mustaches start (b.content.slice start stop)

/-- The texts of a part that stand outside of expressions. -/
def plainTextsIn : Part → List (Nat × Nat)
  | .tag _ _ => []
  | .text start stop => plainSpans start stop (b.mustachesIn (.text start stop))

/-- The attributes of a part. -/
def attributesIn : Part → List Attribute
  | .tag start stop => attributesOf start (b.content.slice start stop)
  | .text _ _ => []

/-- The texts of a template outside of tags and expressions. -/
def plainTexts : List (Nat × Nat) := (markupParts b.content).flatMap b.plainTextsIn

/-- The attributes of a template. -/
def attributes : List Attribute := (markupParts b.content).flatMap b.attributesIn

/-- The expressions of a part, with the quote around each of them. -/
def expressionsIn (part : Part) : List (Option QuoteMark × Nat × Nat) :=
  (b.mustachesIn part).map (fun m => (none, m)) ++
    ((b.attributesIn part).filter Attribute.isBound).map fun a =>
      (some a.quote, a.valueStart, a.valueStop)

/-- The expressions of a template, with the quote around each of them. -/
def expressions : List (Option QuoteMark × Nat × Nat) :=
  (markupParts b.content).flatMap b.expressionsIn

/-! ## Steps -/

/-- Two steps, with the replacements of both. -/
def both (x y : Bookkeeping (List Splice)) : Bookkeeping (List Splice) := do return (← x) ++ (← y)

lemma runs_both {x y : Bookkeeping (List Splice)} (h : Runs (both x y) l out l') :
    ∃ first m second, Runs x l first m ∧ Runs y m second l' ∧ out = first ++ second :=
  runs_bind_bind_pure h

lemma gather_cons (step : α → Bookkeeping (List Splice)) (a : α) (rest : List α) :
    gather step (a :: rest) = both (step a) (gather step rest) := rfl

lemma textSplices_cons (b : TemplateBlock) (cursor stop : Nat) (m : Nat × Nat) (rest : List (Nat × Nat)) :
    b.textSplices cursor stop (m :: rest) =
      both (both (b.plainTextSplices cursor (m.1 - 2)) (b.expressionSplices none m.1 m.2))
        (b.textSplices (m.2 + 2) stop rest) := by
  simp only [both, bind_assoc, pure_bind]
  rfl

/-- Each replacement of the steps for several things is one of some step. -/
lemma exists_run_of_mem_gather {step : α → Bookkeeping (List Splice)} {xs : List α}
    (hrun : Runs (gather step xs) l out l') {s : Splice} (hs : s ∈ out) :
    ∃ a ∈ xs, ∃ m out' m', Runs (step a) m out' m' ∧ s ∈ out' := by
  induction xs generalizing l out with
  | nil =>
    obtain ⟨rfl, rfl⟩ := runs_pure.mp hrun
    exact absurd hs not_mem_nil
  | cons a rest ih =>
    obtain ⟨first, m, second, hfirst, hsecond, rfl⟩ := runs_both hrun
    rcases mem_append.mp hs with hs | hs
    · exact ⟨a, mem_cons_self, l, first, m, hfirst, hs⟩
    · obtain ⟨c, hc, hfound⟩ := ih hsecond hs
      exact ⟨c, mem_cons_of_mem a hc, hfound⟩

/-- The replacements of the steps for several things are, among others, those of each step. -/
lemma exists_run_of_gather {step : α → Bookkeeping (List Splice)} {xs : List α} {a : α}
    (ha : a ∈ xs) (hrun : Runs (gather step xs) l out l') :
    ∃ m out' m', Runs (step a) m out' m' ∧ out' ⊆ out := by
  induction xs generalizing l out with
  | nil => exact absurd ha not_mem_nil
  | cons c rest ih =>
    obtain ⟨first, m, second, hfirst, hsecond, rfl⟩ := runs_both hrun
    rcases mem_cons.mp ha with rfl | ha
    · exact ⟨l, first, m, hfirst, subset_append_left _ _⟩
    · obtain ⟨n, out', n', hfound, hsubset⟩ := ih ha hsecond
      exact ⟨n, out', n', hfound, subset_append_of_subset_right _ hsubset⟩

/-- **The steps of a conversion**: each looks at a text, a string literal or an attribute, and they are taken
one behind the other. -/
inductive Steps (b : TemplateBlock) : Bookkeeping (List Splice) → Prop where
  | nothing : Steps b (pure [])
  | both {x y : Bookkeeping (List Splice)} : Steps b x → Steps b y → Steps b (both x y)
  /-- Text outside of tags and expressions. -/
  | text {span : Nat × Nat} : span ∈ b.plainTexts → Steps b (b.plainTextSplices span.1 span.2)
  /-- A string literal of an expression. -/
  | literal {quote : Option QuoteMark} {start stop : Nat} {span : Nat × Nat} :
    (quote, start, stop) ∈ b.expressions → span ∈ stringLiterals (b.content.slice start stop) →
      Steps b (b.literalSplice quote start (b.content.slice start stop) span)
  /-- An attribute whose value is plain text. -/
  | value {a : Attribute} : a ∈ b.attributes → a.isBound = false → Steps b (b.staticSplice a)

variable {b}

/-- Steps for each element of a list. -/
theorem Steps.gather {step : α → Bookkeeping (List Splice)} :
    ∀ {xs : List α}, (∀ a ∈ xs, b.Steps (step a)) → b.Steps (gather step xs)
  | [], _ => .nothing
  | a :: _, h => (h a mem_cons_self).both (gather fun c hc => h c (mem_cons_of_mem a hc))

/-- The steps for text with expressions. -/
lemma steps_textSplices : ∀ {ms : List (Nat × Nat)} {cursor : Nat},
    (∀ m ∈ ms, (none, m) ∈ b.expressions) → (∀ span ∈ plainSpans cursor stop ms, span ∈ b.plainTexts) →
      b.Steps (b.textSplices cursor stop ms)
  | [], cursor, _, hplain => .text (hplain (cursor, stop) mem_cons_self)
  | (first, last) :: rest, cursor, hms, hplain => by
    have hbefore := Steps.text (hplain (cursor, first - 2) mem_cons_self)
    have hinside : b.Steps (b.expressionSplices none first last) :=
      .gather fun span hspan => .literal (hms (first, last) mem_cons_self) hspan
    have hafter := steps_textSplices (fun m hm => hms m (mem_cons_of_mem _ hm))
      fun span hspan => hplain span (mem_cons_of_mem _ hspan)
    rw [textSplices_cons]
    exact (hbefore.both hinside).both hafter

/-- The conversion of a template consists of such steps. -/
lemma steps_splices (b : TemplateBlock) : b.Steps b.splices := by
  refine Steps.gather fun part hpart => ?_
  cases part with
  | tag start stop =>
    refine Steps.gather fun a ha => ?_
    rw [attributeSplices]
    split_ifs with hbound
    · refine Steps.gather fun span hspan => .literal (mem_flatMap.mpr ⟨_, hpart, ?_⟩) hspan
      exact mem_append_right _ (mem_map.mpr ⟨a, mem_filter.mpr ⟨ha, hbound⟩, rfl⟩)
    · exact .value (mem_flatMap.mpr ⟨_, hpart, ha⟩) (by simpa using hbound)
  | text start stop =>
    refine steps_textSplices (fun m hm => ?_) fun span hspan => ?_
    · exact mem_flatMap.mpr ⟨_, hpart, mem_append_left _ (mem_map_of_mem hm)⟩
    · exact mem_flatMap.mpr ⟨_, hpart, hspan⟩

/-! ## Spans that are filled -/

variable (b)

/-- The phrases of a part of a template get their keys. -/
lemma resolution_resolveAll (offset : Phrase → Nat) {resolved : List (Phrase × Key)}
    (h : Runs (b.resolveAll offset phrases) l resolved l') :
    Resolution b.extractor.delimiter phrases resolved l l' := by
  induction phrases generalizing l resolved with
  | nil =>
    obtain ⟨rfl, rfl⟩ := runs_pure.mp h
    exact .nil _
  | cons p rest ih =>
    rw [resolveAll] at h
    obtain ⟨key, m, others, hkey, hothers, rfl⟩ := runs_bind_bind_pure h
    exact .cons hkey (ih hothers)

/-- Text without expressions: the replacements stand where the phrases do. -/
lemma fills_plainTextSplices (h : start ≤ stop) : Fills start stop (b.plainTextSplices start stop) := by
  intro l out l' hrun
  rw [plainTextSplices] at hrun
  obtain ⟨resolved, m, hresolved, hrun⟩ := runs_bind.mp hrun
  obtain ⟨rfl, rfl⟩ := runs_pure.mp hrun
  have hres := b.resolution_resolveAll _ hresolved
  refine ⟨?_, fun hnil => hres.sparing (map_eq_nil_iff.mp hnil)⟩
  have hlen := length_slice b.content start stop
  rw [inOrder_iff]
  refine ⟨h, ?_, ?_⟩
  · intro s hs
    obtain ⟨x, hx, rfl⟩ := mem_map.mp hs
    have hmem := hres.sublist.subset (mem_map_of_mem hx)
    have hlt := b.extractor.delimiter.lt_of_marked hmem (hres.marked x hx)
    have hstop := (b.extractor.delimiter.mem_phrases hmem).1
    simp only
    omega
  · have hpair := (b.extractor.delimiter.pairwise_phrases _).sublist hres.sublist
    refine pairwise_map.mpr ((pairwise_map.mp hpair).imp ?_)
    intro x y hxy
    simp only
    omega

/-- One replacement for a span as a whole, if one of the phrases in it has got a key. -/
lemma fills_whole {offset : Phrase → Nat} {text : List (Phrase × Key) → Text} (h : start < stop) :
    Fills start stop (do
      let resolved ← b.resolveAll offset phrases
      if resolved.isEmpty then return []
      return [⟨start, stop, text resolved⟩]) := by
  intro l out l' hrun
  obtain ⟨resolved, m, hresolved, hrun⟩ := runs_bind.mp hrun
  have hres := b.resolution_resolveAll _ hresolved
  split_ifs at hrun with hnil
  · obtain ⟨rfl, rfl⟩ := runs_pure.mp hrun
    exact ⟨h.le, fun _ => hres.sparing (List.isEmpty_iff.mp hnil)⟩
  · obtain ⟨rfl, rfl⟩ := runs_pure.mp hrun
    exact ⟨⟨le_refl _, h, le_refl _⟩, fun hnil => by simp at hnil⟩

/-- A literal is replaced in its span. -/
lemma fills_literalSplice (quote : Option QuoteMark) (start : Nat) (expression : Text)
    {span : Nat × Nat} (h : span.1 < span.2) :
    Fills (start + span.1) (start + span.2) (b.literalSplice quote start expression span) := by
  rw [literalSplice]
  have hlt : start + span.1 < start + span.2 := Nat.add_lt_add_left h start
  split_ifs
  · exact .pure_nil hlt.le
  · simp only
    split
    · exact fun _ _ _ hrun => absurd hrun runs_throw
    · exact b.fills_whole hlt

lemma fills_expressionSplices (quote : Option QuoteMark) (h : start ≤ stop) :
    Fills start stop (b.expressionSplices quote start stop) := by
  rw [expressionSplices]
  obtain ⟨hfollow, hlt⟩ := follow_stringLiterals (b.content.slice start stop)
  have hshift := (hfollow.shift start).of_limit_le (add_length_slice_le b.content h)
  exact Fills.gather hshift fun span hspan _ =>
    b.fills_literalSplice quote start (b.content.slice start stop) (hlt span hspan)

lemma fills_textSplices : ∀ {ms : List (Nat × Nat)} {cursor : Nat},
    Follow mustacheSpan stop cursor ms → (∀ m ∈ ms, 2 ≤ m.1 ∧ m.1 ≤ m.2) →
      Fills cursor stop (b.textSplices cursor stop ms)
  | [], _, hfollow, _ => b.fills_plainTextSplices hfollow
  | (first, last) :: rest, cursor, ⟨hstart, _, hfollow⟩, hvalid => by
    obtain ⟨htwo, hle⟩ := hvalid _ mem_cons_self
    have hbefore := b.fills_plainTextSplices hstart
    have hinside := (b.fills_expressionSplices none hle).of_le (Nat.sub_le first 2)
      (Nat.le_add_right last 2)
    have hafter := fills_textSplices hfollow fun m hm => hvalid m (mem_cons_of_mem _ hm)
    have hall := (hbefore.append hinside).append hafter
    simp only [bind_assoc, pure_bind] at hall
    exact hall

/-- An attribute is replaced in its span. -/
lemma fills_attributeSplices {a : Attribute} (hvalue : a.start < a.valueStart)
    (hle : a.valueStart ≤ a.valueStop) : Fills a.start a.stop (b.attributeSplices a) := by
  have hstop : a.stop = a.valueStop + 1 := rfl
  rw [attributeSplices]
  split_ifs
  · exact (b.fills_expressionSplices _ hle).of_le hvalue.le (by omega)
  · exact b.fills_whole (by omega)

lemma fills_partSplices {part : Part} (h : part.span.1 ≤ part.span.2) :
    Fills part.span.1 part.span.2 (b.partSplices part) := by
  cases part with
  | tag start stop =>
    obtain ⟨hfollow, hvalid⟩ := follow_attributesOf start (b.content.slice start stop)
    have hle := add_length_slice_le b.content h
    exact Fills.gather (hfollow.of_limit_le hle) fun a ha _ =>
      b.fills_attributeSplices (hvalid a ha).1 (hvalid a ha).2
  | text start stop =>
    obtain ⟨hfollow, hvalid⟩ := follow_mustaches start (b.content.slice start stop)
    have hle := add_length_slice_le b.content h
    exact b.fills_textSplices (hfollow.of_limit_le hle) hvalid

/-- **The replacements in a template** stand in order, and without any nothing is recorded. -/
theorem fills_splices : Fills 0 b.content.length b.splices :=
  Fills.gather (follow_markupParts b.content) fun _ _ h => b.fills_partSplices h

/-! ## Making the replacements -/

/-- One run makes replacements and lists their changes. -/
lemma foldl_rewrite (splices : List Splice) (out : Text) (changes : List Change) :
    splices.foldl (fun (out, changes) s => (s.apply out, changes ++ [b.change s])) (out, changes) =
      (splices.foldl (fun t s => s.apply t) out, changes ++ splices.map b.change) := by
  induction splices generalizing out changes with
  | nil => rw [foldl_nil, foldl_nil, map_nil, append_nil]
  | cons s rest ih =>
    rw [foldl_cons, ih, foldl_cons, map_cons, append_assoc, singleton_append]

/-- **Replacements in order, made from the last to the first**: each stands in the place of its span,
what stands between them is kept, and their changes are in the same order. -/
theorem rewrite_eq {splices : List Splice} (h : InOrder b.content.length 0 splices) :
    b.rewrite splices = (spliceFrom b.content 0 splices, splices.map b.change) := by
  have hfold := foldr_splice b.content h.follow
  rw [take_zero, nil_append] at hfold
  simp only [rewrite, h.sortDescending_eq, foldl_rewrite]
  rw [foldl_reverse, hfold, nil_append, map_reverse, reverse_reverse]

/-- **A conversion** makes the replacements that have been found. -/
theorem runs_convert {result : Text × List Change} :
    Runs b.convert l result l' ↔ ∃ splices, Runs b.splices l splices l' ∧
      result = (spliceFrom b.content 0 splices, splices.map b.change) := by
  rw [convert, runs_bind]
  constructor
  · rintro ⟨splices, m, hsplices, hdone⟩
    obtain ⟨rfl, rfl⟩ := runs_pure.mp hdone
    exact ⟨splices, hsplices, b.rewrite_eq (b.fills_splices l splices l' hsplices).1⟩
  · rintro ⟨splices, hsplices, rfl⟩
    have hrewrite := b.rewrite_eq (b.fills_splices l splices l' hsplices).1
    exact ⟨splices, l', hsplices, runs_pure.mpr ⟨hrewrite.symm, rfl⟩⟩

end TemplateBlock

end Phrasebook
