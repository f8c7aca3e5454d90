import Phrasebook.Proofs.Component.Quiet

/-!
# What becomes of a part of a template

A step of the conversion looks at a span of the template and gives replacements in it; what it makes of
the span is the text of the span with these replacements. Conditions keep what is written apart from what
stands around it.

## Main results

* `TemplateBlock.Yields.both` — for steps one behind the other the texts are put together.
* `TemplateBlock.yields_expressionSplices` — what becomes of an expression.
* `TemplateBlock.yields_textSplices` — what becomes of the text between tags.
-/

namespace Phrasebook

open List Option Text

variable {resolved : List (Phrase × Key)} {cursor start stop middle : Nat} {e r t u g v : Text}
  {d : Delimiter} {k : Key} {p : Phrase} {splices : List Splice}

/-! ## Spans with replacements -/

/-- A text between two offsets with replacements made, which are given in order. -/
def patched (t : Text) (start stop : Nat) : List Splice → Text
  | [] => t.slice start stop
  | s :: rest => t.slice start s.start ++ s.text ++ patched t s.stop stop rest

/-- To splice a text is to patch it as a whole. -/
lemma spliceFrom_eq_patched (t : Text) (splices : List Splice) (cursor : Nat) :
    spliceFrom t cursor splices = patched t cursor t.length splices := by
  induction splices generalizing cursor with
  | nil => rw [spliceFrom, patched, Text.slice, take_length]
  | cons s rest ih => rw [spliceFrom, patched, ih]

/-- What stands before all replacements is kept. -/
lemma patched_advance (t : Text) (h : start ≤ middle) (hstop : middle ≤ stop)
    (hsplices : ∀ s ∈ splices, middle ≤ s.start) :
    patched t start stop splices = t.slice start middle ++ patched t middle stop splices := by
  cases splices with
  | nil => exact (t.slice_append_slice h hstop).symm
  | cons s rest =>
    rw [patched, patched, ← t.slice_append_slice h (hsplices s mem_cons_self)]
    simp only [append_assoc]

/-- **Replacements in spans one behind the other.** -/
theorem patched_append (t : Text) (hle : middle ≤ stop) {others : List Splice}
    (h : InOrder middle start splices) (hothers : ∀ s ∈ others, middle ≤ s.start) :
    patched t start stop (splices ++ others) =
      patched t start middle splices ++ patched t middle stop others := by
  induction splices generalizing start with
  | nil => exact patched_advance t h hle hothers
  | cons s rest ih =>
    obtain ⟨-, -, hrest⟩ := h
    rw [cons_append, patched, patched, ih hrest]
    simp only [append_assoc]

lemma slice_self (t : Text) (start : Nat) : t.slice start start = [] := by
  rw [slice_eq_take_drop, Nat.sub_self, take_zero]

lemma patched_whole (t u : Text) (start stop : Nat) :
    patched t start stop [⟨start, stop, u⟩] = u := by
  rw [patched, patched, slice_self, slice_self, nil_append, append_nil]

lemma Delimiter.isSilent_of_marked_eq_nil (h : d.marked t = []) : d.IsSilent t := by
  intro p hp
  simpa using filter_eq_nil_iff.mp h p hp

/-- A literal makes no pair of braces with what stands around it. -/
lemma IsStringLiteral.sealed (h : IsStringLiteral v)
    (hbraces : Unpaired '\x7d' (u ++ (v ++ r))) : Sealed '\x7d' v := by
  obtain ⟨hq, hinner⟩ := h
  rename_i q inner
  have hne : q ≠ '\x7d' := by
    rintro rfl
    exact absurd hq (by decide)
  refine (Sealed.iff_of_ne_nil (by simp)).mpr ⟨hbraces.right.left, by simpa using hne, ?_⟩
  rw [getLast?_concat]
  simpa using hne

/-- What stands outside of spans. -/
def outside (t : Text) (start stop : Nat) (spans : List (Nat × Nat)) : Text :=
  patched t start stop (spans.map fun span => ⟨span.1, span.2, []⟩)

namespace TemplateBlock

variable {b : TemplateBlock} {keys : List Key}

/-- `b.Yields keys start stop x P`: if the step `x` has keys on record that are among the given ones,
what it makes of the span has the property `P`. -/
def Yields (b : TemplateBlock) (keys : List Key) (start stop : Nat) (x : Bookkeeping (List Splice))
    (P : Text → Prop) : Prop :=
  ∀ l out l', Runs x l out l' → l'.keys ⊆ keys →
    l.keys ⊆ keys ∧ InOrder stop start out ∧ P (patched b.content start stop out)

namespace Yields

variable {start middle stop : Nat} {x y : Bookkeeping (List Splice)} {P Q : Text → Prop}

lemma imp (h : b.Yields keys start stop x P) (himp : ∀ t, P t → Q t) :
    b.Yields keys start stop x Q := by
  intro l out l' hrun hkeys
  obtain ⟨hbefore, hord, hpatched⟩ := h l out l' hrun hkeys
  exact ⟨hbefore, hord, himp _ hpatched⟩

/-- A step without replacements yields the text as it is. -/
lemma pure_nil (hle : start ≤ stop) (h : P (b.content.slice start stop)) :
    b.Yields keys start stop (pure []) P := by
  intro l out l' hrun hkeys
  obtain ⟨rfl, rfl⟩ := runs_pure.mp hrun
  exact ⟨hkeys, hle, h⟩

/-- **Two steps.** -/
theorem both (hx : b.Yields keys start middle x P) (hy : b.Yields keys middle stop y Q) :
    b.Yields keys start stop (TemplateBlock.both x y) fun t => ∃ u v, t = u ++ v ∧ P u ∧ Q v := by
  intro l out l' hrun hkeys
  obtain ⟨first, m, second, hfirst, hsecond, rfl⟩ := runs_both hrun
  obtain ⟨hkeys', hord', hpatched'⟩ := hy m second l' hsecond hkeys
  obtain ⟨hkeys'', hord, hpatched⟩ := hx l first m hfirst hkeys'
  refine ⟨hkeys'', hord'.append hord, _, _, ?_, hpatched, hpatched'⟩
  exact patched_append _ hord'.cursor_le hord fun s hs => ((inOrder_iff.mp hord').2.1 s hs).1

/-- What stands before a step is kept. -/
lemma advance (hle : start ≤ middle) (h : b.Yields keys middle stop x P) :
    b.Yields keys start stop x fun t => ∃ v, t = b.content.slice start middle ++ v ∧ P v := by
  intro l out l' hrun hkeys
  obtain ⟨hkeys', hord, hpatched⟩ := h l out l' hrun hkeys
  refine ⟨hkeys', hord.of_le hle, _, ?_, hpatched⟩
  exact patched_advance _ hle hord.cursor_le fun s hs => ((inOrder_iff.mp hord).2.1 s hs).1

/-- What stands behind a step is kept. -/
lemma extend (hle : middle ≤ stop) (h : b.Yields keys start middle x P) :
    b.Yields keys start stop x fun t => ∃ v, t = v ++ b.content.slice middle stop ∧ P v := by
  intro l out l' hrun hkeys
  obtain ⟨hkeys', hord, hpatched⟩ := h l out l' hrun hkeys
  refine ⟨hkeys', hord.of_limit_le hle, _, ?_, hpatched⟩
  have happend := patched_append b.content hle hord (forall_mem_nil _)
  rwa [append_nil] at happend

end Yields

/-! ## Literals -/

variable {quote : Option QuoteMark}

/-- A phrase whose lookup can be written with any of the keys. -/
@[mk_iff]
structure IsTameLookup (b : TemplateBlock) (quote : Option QuoteMark) (keys : List Key) (p : Phrase) :
    Prop where
  comment : Harmless quote (b.extractor.options.comment (canonicalize p.payload) true)
  /-- Outside of attributes no key has an opening bracket. -/
  bracket : quote = none → ∀ k ∈ keys, .scalar '<' ∉ k.text
  /-- Outside of attributes no key has two closing braces in a row. -/
  braces : quote = none → ∀ k ∈ keys, Unpaired '\x7d' k.text

instance (p : Phrase) : Decidable (b.IsTameLookup quote keys p) :=
  decidable_of_iff _ (isTameLookup_iff b quote keys p).symm

/-- A lookup for a tame phrase fits in its place. -/
lemma IsTameLookup.fit (h : b.IsTameLookup quote keys p) (hcall : IsCallName b.callName) (hk : k ∈ keys)
    {arguments : List Argument} (harguments : ∀ a ∈ arguments, ∀ c ∈ a.name ++ a.expression, IsInner c) :
    b.marking.Fit quote (b.lookup quote k p.payload arguments) :=
  fit_lookup hcall (fun hnone => h.bracket hnone k hk) (fun hnone => h.braces hnone k hk) h.comment
    harguments

/-- A literal whose phrases can be replaced. -/
@[mk_iff]
structure IsTameLiteral (b : TemplateBlock) (quote : Option QuoteMark) (keys : List Key) (l : Literal) :
    Prop where
  /-- What is kept between the phrases can stand between lookups. -/
  kept : ∀ u ∈ keptOf l (b.extractor.delimiter.marked l.content), IsKept quote u
  lookups : ∀ p ∈ b.extractor.delimiter.marked l.content, b.IsTameLookup quote keys p

instance (l : Literal) : Decidable (b.IsTameLiteral quote keys l) :=
  decidable_of_iff _ (isTameLiteral_iff b quote keys l).symm

/-- What takes the place of a tame literal fits there. -/
lemma IsTameLiteral.fit {l : Literal} (h : b.IsTameLiteral quote keys l) (hcall : IsCallName b.callName)
    (hresolved : Assigned b.extractor.delimiter (b.extractor.delimiter.phrases l.content) keys resolved) :
    b.marking.Fit quote
      (b.callOrTemplate quote l (b.extractor.delimiter.phrases l.content) resolved) := by
  have hmarked : resolved.map Prod.fst = b.extractor.delimiter.marked l.content := hresolved.phrases_eq
  refine fit_callOrTemplate (fun u hu => h.kept u (by rwa [hmarked] at hu)) fun x hx => ?_
  refine (h.lookups x.1 ?_).fit hcall (hresolved.keys_mem x hx) (forall_mem_nil _)
  rw [← hmarked]
  exact mem_map_of_mem hx

/-- A string literal of an expression that is to be replaced. -/
structure MarkedLiteral (b : TemplateBlock) (e : Text) (span : Nat × Nat) (decoded : Decoded) :
    Prop where
  mem : span ∈ stringLiterals e
  opens : opensLookup b.callName (e.take span.1) = false
  decode : decodeLiteral (literalInside e span) = .ok decoded
  marked : b.extractor.delimiter.marked decoded.text ≠ []

/-- What holds of all literals that are to be replaced can be found out one by one. -/
lemma forall_markedLiteral_iff {P : Nat × Nat → Decoded → Prop} :
    (∀ span decoded, b.MarkedLiteral e span decoded → P span decoded) ↔
      ∀ span ∈ stringLiterals e, opensLookup b.callName (e.take span.1) = false →
        ∀ decoded ∈ (decodeLiteral (literalInside e span)).toOption,
          b.extractor.delimiter.marked decoded.text ≠ [] → P span decoded := by
  constructor
  · intro h span hspan hopens decoded hdecode hmarked
    refine h span decoded ⟨hspan, hopens, ?_, hmarked⟩
    cases hliteral : decodeLiteral (literalInside e span) with
    | error failure =>
      rw [hliteral] at hdecode
      cases hdecode
    | ok decoded' =>
      rw [hliteral] at hdecode
      rw [some.inj hdecode]
  · intro h span decoded hmarked
    refine h span hmarked.mem hmarked.opens decoded ?_ hmarked.marked
    rw [hmarked.decode]
    rfl

instance (e : Text) (P : Nat × Nat → Decoded → Prop) [∀ span decoded, Decidable (P span decoded)] :
    Decidable (∀ span decoded, b.MarkedLiteral e span decoded → P span decoded) :=
  decidable_of_iff _ forall_markedLiteral_iff.symm

/-- What becomes of a string literal: it is left alone and settled, or something that can be written
takes its place. -/
lemma yields_literalSplice (hcall : IsCallName b.callName) (start : Nat) {span : Nat × Nat}
    (hspan : span ∈ stringLiterals e)
    (htame : ∀ decoded, b.MarkedLiteral e span decoded →
      b.IsTameLiteral quote keys (.quoted (literalInside e span) decoded)) :
    b.Yields keys (start + span.1) (start + span.2) (b.literalSplice quote start e span) fun t =>
      (t = b.content.slice (start + span.1) (start + span.2) ∧
        (opensLookup b.callName (e.take span.1) ∨
          b.marking.LiteralSettled (literalInside e span))) ∨ b.marking.Fit quote t := by
  intro l out l' hrun hkeys
  have hlt := (follow_stringLiterals e).2 span hspan
  have hord := (b.fills_literalSplice quote start e hlt l out l' hrun).1
  rcases runs_literalSplice hrun with
    ⟨hopens, rfl, rfl⟩ | ⟨hopens, hgrow, decoded, resolved, hdecode, hresolved, rfl⟩
  · exact ⟨hkeys, hord, .inl ⟨rfl, .inl hopens⟩⟩
  · refine ⟨List.Subset.trans hgrow hkeys, hord, ?_⟩
    have hmarked : resolved.map Prod.fst = b.extractor.delimiter.marked decoded.text :=
      hresolved.phrases_eq
    split_ifs with hnil
    · rw [List.isEmpty_iff.mp hnil, map_nil] at hmarked
      exact .inl ⟨rfl, .inr ⟨decoded, hdecode, Delimiter.isSilent_of_marked_eq_nil hmarked.symm⟩⟩
    · refine .inr ?_
      have hne : b.extractor.delimiter.marked decoded.text ≠ [] := by
        rw [← hmarked]
        simpa using hnil
      rw [spliceOfLiteral, patched_whole]
      exact (htame decoded ⟨hspan, hopens, hdecode, hne⟩).fit hcall (hresolved.mono hkeys)

/-! ## Expressions -/

/-- An expression that stands between the quotes of an attribute, or in double braces. -/
structure WellPlaced (quote : Option QuoteMark) (e : Text) : Prop where
  /-- The quote of the attribute does not stand in it. -/
  inside : ∀ q ∈ quote, q.point ∉ e
  bracket : quote = none → .scalar '<' ∉ e
  braces : quote = none → Unpaired (.scalar '\x7d') (e ++ [.scalar '\x7d'])

lemma WellPlaced.right (h : WellPlaced quote (u ++ t)) : WellPlaced quote t where
  inside q hq hmem := h.inside q hq (mem_append_right u hmem)
  bracket hnone hmem := h.bracket hnone (mem_append_right u hmem)
  braces hnone := by
    have hbraces := h.braces hnone
    rw [append_assoc] at hbraces
    exact hbraces.right

/-- What stands before a literal, something in the place of the literal, and what follows. -/
lemma WellPlaced.replace {x w : Text} (h : WellPlaced quote (g ++ x)) (hinside : ∀ q ∈ quote, q.point ∉ w)
    (hbracket : quote = none → .scalar '<' ∉ w) (hbraces : quote = none → Sealed (.scalar '\x7d') w)
    (hr : WellPlaced quote r) :
    WellPlaced quote (g ++ (w ++ r)) where
  inside q hq := by
    simp only [mem_append, not_or]
    exact ⟨fun hmem => h.inside q hq (mem_append_left x hmem), hinside q hq, hr.inside q hq⟩
  bracket hnone := by
    simp only [mem_append, not_or]
    exact ⟨fun hmem => h.bracket hnone (mem_append_left x hmem), hbracket hnone,
      hr.bracket hnone⟩
  braces hnone := by
    rw [append_assoc, append_assoc]
    exact (hbraces hnone).unpaired_append (h.braces hnone).left.left (hr.braces hnone)

/-- A literal that is kept, behind text without quotes and before what is quiet. -/
lemma quiet_keep (hcall : IsCallName b.callName) (hg : Unquoted g) (hv : IsStringLiteral v)
    (hu : u = [] ∨ ∃ w q, q.isQuote ∧ u = w ++ [q])
    (hsettled : opensLookup b.callName (u ++ g) ∨ b.marking.LiteralSettled
      (literalInside (u ++ g ++ (v ++ r)) ((u ++ g).length, (u ++ g).length + v.length)))
    (ht : b.marking.Quiet t) : b.marking.Quiet (g ++ (v ++ t)) := by
  obtain ⟨hq, hinner⟩ := hv
  rename_i q inner
  refine .literal hg hq hinner (hsettled.imp (fun hopens => ?_) fun hinside => ?_) ht
  · rcases hu with rfl | ⟨w, q', hq', rfl⟩
    · exact hopens
    · exact Marking.opensLookup_of_append hcall.unquoted hq' hopens
  · have hlength : (q :: inner ++ [q]).length = inner.length + 2 := by simp
    rwa [hlength, Marking.literalInside_eq] at hinside

/-- The literals of an expression one behind the other.

**Proof sketch.** Induction on what the scanner sees. What stands between the literals is kept and has
no quotes. A literal that is kept is settled; if it is so as the argument of a lookup, then what opens
the lookup stands behind the literal before it. -/
lemma yields_literals (hcall : IsCallName b.callName)
    (htame : ∀ span decoded, b.MarkedLiteral e span decoded →
      b.IsTameLiteral quote keys (.quoted (literalInside e span) decoded))
    {offset : Nat} {spans : List (Nat × Nat)} (hscanned : Scanned stringAt? offset t spans) (he : e = u ++ t)
    (hoffset : offset = u.length) (hu : u = [] ∨ ∃ v q, q.isQuote ∧ u = v ++ [q])
    (hspans : ∀ span ∈ spans, span ∈ stringLiterals e)
    (hslice : ∀ i j, i ≤ j → j ≤ e.length → b.content.slice (start + i) (start + j) = e.slice i j)
    (hwell : WellPlaced quote t) (houtside : Unquoted (outside e offset e.length spans)) :
    b.Yields keys (start + offset) (start + e.length) (gather (b.literalSplice quote start e) spans)
      fun t' => b.marking.Quiet t' ∧ WellPlaced quote t' := by
  induction hscanned generalizing u with
  | @done offset gap hgap =>
    have hgap : e.slice offset e.length = gap := by
      rw [he, hoffset, Text.slice, take_length, drop_left]
    have hunquoted : Unquoted gap := hgap ▸ houtside
    refine Yields.pure_nil ?_ ?_
    · rw [he, length_append]
      omega
    · rw [hslice _ _ (by rw [he, length_append]; omega) (le_refl _), hgap]
      exact ⟨.gap hunquoted, hwell⟩
  | @found offset gap v rest x xs hgap hne hfind hrest ih =>
    obtain ⟨length, hlength, heq⟩ := map_eq_some_iff.mp hfind
    obtain ⟨rfl, rfl⟩ := Prod.mk.inj heq
    have hliteral := isStringLiteral_of_stringLength? hlength
    have hlen : e.length = offset + gap.length + v.length + rest.length := by
      rw [he, hoffset]
      simp only [length_append]
      omega
    -- where the gap and the literal stand
    have hgapSlice : e.slice offset (offset + gap.length) = gap := slice_of_eq he hoffset rfl
    have he' : e = (u ++ gap) ++ (v ++ rest) := by rw [he, append_assoc]
    have hoffset' : offset + gap.length = (u ++ gap).length := by rw [hoffset, length_append]
    have hliteralSlice : e.slice (offset + gap.length) (offset + gap.length + v.length) = v :=
      slice_of_eq he' hoffset' rfl
    obtain ⟨hgapUnquoted, houtside'⟩ : Unquoted gap ∧
        Unquoted (outside e (offset + gap.length + v.length) e.length xs) := by
      rw [outside, map_cons, patched, hgapSlice, append_nil] at houtside
      exact forall_mem_append.mp houtside
    obtain ⟨hspan, hspans'⟩ := forall_mem_cons.mp hspans
    have hhere := yields_literalSplice hcall start hspan (htame _)
    have hthere := ih (u := u ++ gap ++ v) (by rw [he]; simp only [append_assoc])
      (by simp only [hoffset, length_append])
      (by
        obtain ⟨hq, -⟩ := hliteral
        rename_i q inner
        exact .inr ⟨u ++ gap ++ (q :: inner), q, hq, by simp⟩) hspans'
      (hwell.right.right) houtside'
    rw [gather_cons]
    refine ((hhere.both hthere).advance (show start + offset ≤ _ by simp only; omega)).imp ?_
    rintro t ⟨-, rfl, w, r, rfl, hw, hquiet, hwell'⟩
    rw [hslice _ _ (by simp only; omega) (by simp only; omega), hgapSlice]
    rcases hw with ⟨rfl, hsettled⟩ | hfit
    · rw [hslice _ _ (by simp only; omega) (by simp only; omega), hliteralSlice]
      simp only [he', hoffset', take_left] at hsettled
      refine ⟨quiet_keep hcall hgapUnquoted hliteral hu hsettled hquiet,
        hwell.replace (fun q hq hmem => ?_) (fun hnone hmem => ?_) (fun hnone => ?_) hwell'⟩
      · exact hwell.right.inside q hq (mem_append_left rest hmem)
      · exact hwell.right.bracket hnone (mem_append_left rest hmem)
      · exact hliteral.sealed (hwell.braces hnone).left
    · refine ⟨(hfit.quiet.append hquiet).unquoted_append hgapUnquoted, ?_⟩
      exact hwell.replace hfit.inside hfit.bracket hfit.braces hwell'

/-- A step that looks for no marked literals gives nothing. -/
lemma expressionSettled_of_runs {l l' : Ledger} {out : List Splice}
    (hrun : Runs (b.expressionSplices quote start stop) l out l')
    (hnone : ∀ span decoded, ¬ b.MarkedLiteral (b.content.slice start stop) span decoded) :
    out = [] ∧ b.marking.ExpressionSettled (b.content.slice start stop) := by
  rw [expressionSplices] at hrun
  -- a literal gets a replacement only if it is marked
  have hempty : ∀ {span decoded resolved} {keys : List Key},
      span ∈ stringLiterals (b.content.slice start stop) →
      opensLookup b.callName ((b.content.slice start stop).take span.1) = false →
      decodeLiteral (literalInside (b.content.slice start stop) span) = .ok decoded →
      Assigned b.extractor.delimiter (b.extractor.delimiter.phrases decoded.text) keys resolved →
      b.extractor.delimiter.marked decoded.text = [] ∧ resolved = [] := by
    intro span decoded resolved keys hspan hopens hdecode hresolved
    have hmarked : resolved.map Prod.fst = b.extractor.delimiter.marked decoded.text :=
      hresolved.phrases_eq
    have hnil : b.extractor.delimiter.marked decoded.text = [] := by
      by_contra hne
      exact hnone span decoded ⟨hspan, hopens, hdecode, hne⟩
    rw [hnil, map_eq_nil_iff] at hmarked
    exact ⟨hnil, hmarked⟩
  constructor
  · refine eq_nil_iff_forall_not_mem.mpr fun s hs => ?_
    obtain ⟨span, hspan, m, out', m', hrun', hs⟩ := exists_run_of_mem_gather hrun hs
    rcases runs_literalSplice hrun' with
      ⟨-, rfl, -⟩ | ⟨hopens, -, decoded, resolved, hdecode, hresolved, rfl⟩
    · exact absurd hs not_mem_nil
    · obtain ⟨-, rfl⟩ := hempty hspan hopens hdecode hresolved
      exact absurd hs not_mem_nil
  · intro span hspan
    obtain ⟨m, out', m', hrun', -⟩ := exists_run_of_gather hspan hrun
    rcases runs_literalSplice hrun' with
      ⟨hopens, -, -⟩ | ⟨hopens, -, decoded, resolved, hdecode, hresolved, -⟩
    · exact .inl hopens
    · obtain ⟨hnil, -⟩ := hempty hspan hopens hdecode hresolved
      exact .inr ⟨decoded, hdecode, Delimiter.isSilent_of_marked_eq_nil hnil⟩

/-- An expression whose literals can be replaced. -/
def IsTameExpression (b : TemplateBlock) (quote : Option QuoteMark) (keys : List Key) (e : Text) : Prop :=
  ∀ span decoded, b.MarkedLiteral e span decoded →
    Unquoted (outside e 0 e.length (stringLiterals e)) ∧
      b.IsTameLiteral quote keys (.quoted (literalInside e span) decoded)

instance (e : Text) : Decidable (b.IsTameExpression quote keys e) :=
  inferInstanceAs (Decidable (∀ span decoded, b.MarkedLiteral e span decoded → _))

/-- **What becomes of an expression**: it is settled, and stands as well where it stands. -/
theorem yields_expressionSplices (hcall : IsCallName b.callName) (hle : start ≤ stop)
    (hstop : stop ≤ b.content.length) (hwell : WellPlaced quote (b.content.slice start stop))
    (htame : b.IsTameExpression quote keys (b.content.slice start stop)) :
    b.Yields keys start stop (b.expressionSplices quote start stop) fun t =>
      b.marking.ExpressionSettled t ∧ WellPlaced quote t := by
  by_cases hmarked : ∃ span decoded, b.MarkedLiteral (b.content.slice start stop) span decoded
  · obtain ⟨span, decoded, hmarked⟩ := hmarked
    have hlen : (b.content.slice start stop).length = stop - start := by
      rw [length_slice, Nat.min_eq_left hstop]
    have hslice : ∀ i j, i ≤ j → j ≤ (b.content.slice start stop).length →
        b.content.slice (start + i) (start + j) = (b.content.slice start stop).slice i j := by
      intro i j _ hj
      rw [slice_slice _ (by omega), Nat.add_comm i, Nat.add_comm j]
    have hyields := yields_literals hcall (fun span decoded h => (htame span decoded h).2)
      (scanned_stringLiterals _) (u := []) rfl rfl (.inl rfl) (fun _ h => h) hslice hwell
      (htame span decoded hmarked).1
    rw [hlen, Nat.add_zero, Nat.add_sub_cancel' hle] at hyields
    exact hyields.imp fun t ht => ⟨ht.1.expressionSettled, ht.2⟩
  · intro l out l' hrun hkeys
    obtain ⟨hord, hbooks⟩ := b.fills_expressionSplices quote hle l out l' hrun
    obtain ⟨rfl, hsettled⟩ := expressionSettled_of_runs hrun fun span decoded h =>
      hmarked ⟨span, decoded, h⟩
    rw [hbooks rfl] at hkeys
    exact ⟨hkeys, hord, hsettled, hwell⟩

/-! ## Text outside of expressions -/

/-- The phrases of a text are behind the cursor or still to come. -/
lemma isSilent_of_mem_keptBetween_append (hplain : d.pattern.isPlain)
    (done : List Phrase) {todo : List Phrase} (hall : d.marked t = done ++ todo) (hbegins : d.Begins t cursor)
    (hle : cursor ≤ t.length) (hdone : ∀ p ∈ done, p.stop ≤ cursor) (htodo : ∀ p ∈ todo, cursor ≤ p.start)
    (hu : u ∈ keptBetween t.slice t.length cursor todo) : d.IsSilent u := by
  induction todo generalizing done cursor with
  | nil =>
    obtain rfl := mem_singleton.mp hu
    refine d.isSilent_between hplain hle (le_refl _) hbegins (.inl rfl) fun p hp hmarked => ?_
    have hp' : p ∈ d.marked t := mem_filter.mpr ⟨hp, hmarked⟩
    rw [hall, append_nil] at hp'
    exact .inl (hdone p hp')
  | cons p todo ih =>
    have hpair : (d.marked t).Pairwise fun a b => a.stop ≤ b.start :=
      (d.pairwise_phrases t).sublist filter_sublist
    obtain ⟨hp, hmarked⟩ := mem_filter.mp (show p ∈ d.marked t by rw [hall]; simp)
    have hlt := d.lt_of_marked hp hmarked
    have hcursor := htodo p mem_cons_self
    have hlater : ∀ q ∈ todo, p.stop ≤ q.start := by
      rw [hall, pairwise_append] at hpair
      exact (pairwise_cons.mp hpair.2.1).1
    rcases mem_cons.mp hu with rfl | hu
    · refine d.isSilent_between hplain hcursor (by have := (d.mem_phrases hp).1; omega) hbegins
        (.inr ⟨p, hp, hlt, rfl⟩) fun q hq hmarked => ?_
      have hq' : q ∈ d.marked t := mem_filter.mpr ⟨hq, hmarked⟩
      rw [hall] at hq'
      rcases mem_append.mp hq' with hq' | hq'
      · exact .inl (hdone q hq')
      rcases mem_cons.mp hq' with rfl | hq'
      · exact .inr (le_refl _)
      · have := hlater q hq'
        exact .inr (by omega)
    · refine ih (done ++ [p]) (by rw [hall]; simp) (.inr ⟨p, hp, hlt, rfl⟩)
        (d.mem_phrases hp).1 (fun q hq => ?_) hlater hu
      rcases mem_append.mp hq with hq | hq
      · have := hdone q hq
        omega
      · rw [mem_singleton.mp hq]

/-- Between the phrases of a text there are no others. -/
lemma isSilent_of_mem_keptBetween (hplain : d.pattern.isPlain)
    (hu : u ∈ keptBetween t.slice t.length 0 (d.marked t)) : d.IsSilent u :=
  isSilent_of_mem_keptBetween_append hplain [] (nil_append _).symm (.inl rfl) (Nat.zero_le _)
    (forall_mem_nil _) (fun _ _ => Nat.zero_le _) hu

/-- A phrase in text that can be replaced. -/
@[mk_iff]
structure IsTamePhrase (b : TemplateBlock) (keys : List Key) (t : Text) (p : Phrase) : Prop where
  lookup : b.IsTameLookup none keys p
  /-- No expression is open before it, nor does an opening brace stand there. -/
  braces : Unpaired (.scalar '\x7b') (t.take p.start ++ [.scalar '\x7b'])
  arguments : ∀ a ∈ informalArguments p.payload, Unquoted a.expression

instance (t : Text) (p : Phrase) : Decidable (b.IsTamePhrase keys t p) :=
  decidable_of_iff _ (isTamePhrase_iff b keys t p).symm

/-- A text whose phrases can be replaced. -/
def IsTameText (b : TemplateBlock) (keys : List Key) (t : Text) : Prop :=
  ∀ p ∈ b.extractor.delimiter.marked t, b.IsTamePhrase keys t p

instance (t : Text) : Decidable (b.IsTameText keys t) :=
  inferInstanceAs (Decidable (∀ p ∈ b.extractor.delimiter.marked t, b.IsTamePhrase keys t p))

/-- The expression that takes the place of a phrase. -/
def phraseExpression (b : TemplateBlock) (p : Phrase) (key : Key) : Text :=
  " " ++ b.lookup none key p.payload (informalArguments p.payload) ++ " "

/-- The arguments of a lookup can be passed. -/
lemma isInner_of_mem_informalArguments {payload : Text} (hbracket : .scalar '<' ∉ payload)
    {a : Argument} (ha : a ∈ informalArguments payload) (hquote : Unquoted a.expression) :
    ∀ c ∈ a.name ++ a.expression, IsInner c := by
  obtain ⟨hname, hsubset, hbrace⟩ := isFrom_of_mem_informalArguments ha
  have hexpression : ∀ c ∈ a.expression, IsInner c := by
    intro c hc
    refine ⟨hquote c hc, ?_, ?_⟩
    · rintro rfl
      exact hbracket (hsubset hc)
    · rintro rfl
      exact hbrace hc
  refine forall_mem_append.mpr ⟨?_, hexpression⟩
  rcases hname with hname | ⟨n, hname⟩
  · rwa [hname]
  · intro c hc
    rw [hname, argumentName] at hc
    rcases mem_append.mp hc with hc | hc
    · exact (by decide : ∀ c ∈ ("arg" : Text), c.isQuote = false ∧ c ≠ '<' ∧
        c ≠ '\x7d') c hc
    · have hnumber : c ∈ Text.ofInt n := hc
      refine ⟨unquoted_ofInt n c hnumber, ?_, ?_⟩
      · rintro rfl
        exact notMem_ofInt (by decide) (by decide) n hnumber
      · rintro rfl
        exact notMem_ofInt (by decide) (by decide) n hnumber

/-- The expression that takes the place of a phrase is settled and can stand in double braces. -/
lemma IsTamePhrase.expression (h : b.IsTamePhrase keys t p)
    (hcall : IsCallName b.callName) (hbracket : .scalar '<' ∉ p.payload) (hk : k ∈ keys) :
    b.marking.ExpressionSettled (b.phraseExpression p k) ∧ WellPlaced none (b.phraseExpression p k) := by
  have hfit := h.lookup.fit hcall hk fun a ha =>
    isInner_of_mem_informalArguments hbracket ha (h.arguments a ha)
  have hblank : b.marking.Writable none " " := .of_unquoted (by decide) fun _ => by decide
  have hwritable := (hblank.append hfit.toWritable).append hblank
  refine ⟨hwritable.quiet.expressionSettled, hwritable.inside, hwritable.bracket, fun _ => ?_⟩
  have hspace : Unpaired '\x7d' (" " : Text) := .of_notMem (by decide)
  have hend : Unpaired (.scalar '\x7d') ((" " : Text) ++ [.scalar '\x7d']) := by
    unfold Unpaired
    decide
  rw [phraseExpression, append_assoc, append_assoc]
  exact (hfit.braces rfl).unpaired_append hspace hend

/-- Replacements of phrases are made in the text of the span. -/
lemma patched_phraseSplices (hstop : stop ≤ b.content.length)
    (hphrases : ∀ x ∈ resolved, x.1.stop ≤ stop - start ∧ x.1.start ≤ x.1.stop)
    (hcursor : start + cursor ≤ stop) :
    patched b.content (start + cursor) stop (resolved.map (b.phraseSplice start)) =
      interpolate (b.content.slice start stop).slice (fun p key => mustache (b.phraseExpression p key))
        (b.content.slice start stop).length cursor resolved := by
  induction resolved generalizing cursor with
  | nil =>
    have hlen : (b.content.slice start stop).length = stop - start := by
      rw [length_slice, Nat.min_eq_left hstop]
    rw [map_nil, patched, interpolate, slice_slice _ (by omega), hlen, Nat.add_comm cursor,
      Nat.sub_add_cancel (by omega)]
  | cons x resolved ih =>
    obtain ⟨⟨hle, hlt⟩, hrest⟩ := forall_mem_cons.mp hphrases
    have hstop' : start + x.1.stop ≤ stop := by omega
    rw [map_cons, patched, interpolate, ← ih hrest hstop', slice_slice _ (by omega),
      Nat.add_comm cursor, Nat.add_comm x.1.start]
    simp only [phraseSplice, mustache, phraseExpression, mustacheOpening, mustacheClosing,
      append_assoc]
    rfl

/-- A character comes from a segment or from a lookup. -/
lemma mem_interpolate {segment : Nat → Nat → Text} {write : Phrase → Key → Text} {length : Nat}
    {c : CodePoint} (h : c ∈ interpolate segment write length cursor resolved) :
    (∃ start stop, c ∈ segment start stop) ∨ ∃ x ∈ resolved, c ∈ write x.1 x.2 := by
  induction resolved generalizing cursor with
  | nil => exact .inl ⟨_, _, h⟩
  | cons x resolved ih =>
    rw [interpolate, mem_append, mem_append] at h
    rcases h with (h | h) | h
    · exact .inl ⟨_, _, h⟩
    · exact .inr ⟨x, mem_cons_self, h⟩
    · exact (ih h).imp_right fun ⟨y, hy, hc⟩ => ⟨y, mem_cons_of_mem x hy, hc⟩

/-- What becomes of a text with phrases in it, before something that can follow. -/
lemma textSettled_interpolate (hcall : IsCallName b.callName) {following : Text}
    (hbracket : ∀ x ∈ resolved, .scalar '<' ∉ x.1.payload) (htame : ∀ x ∈ resolved, b.IsTamePhrase keys t x.1)
    (hkeys : ∀ x ∈ resolved, x.2 ∈ keys)
    (hlast : ∀ n, b.extractor.delimiter.IsSilent (t.drop n) → b.marking.TextSettled (t.drop n ++ following))
    (hsilent : ∀ u ∈ keptBetween t.slice t.length cursor (resolved.map Prod.fst),
      b.extractor.delimiter.IsSilent u) :
    b.marking.TextSettled (interpolate t.slice (fun p key => mustache (b.phraseExpression p key)) t.length
      cursor resolved ++ following) := by
  induction resolved generalizing cursor with
  | nil =>
    have hslice : t.slice cursor t.length = t.drop cursor := by rw [Text.slice, take_length]
    have hend := hsilent _ mem_cons_self
    rw [interpolate, hslice]
    rw [hslice] at hend
    exact hlast cursor hend
  | cons x resolved ih =>
    obtain ⟨hhere, hsilent⟩ := forall_mem_cons.mp hsilent
    obtain ⟨hbracket, hbrackets⟩ := forall_mem_cons.mp hbracket
    obtain ⟨hx, htame⟩ := forall_mem_cons.mp htame
    obtain ⟨hk, hkeys⟩ := forall_mem_cons.mp hkeys
    obtain ⟨hsettled, hwell⟩ := hx.expression hcall hbracket hk
    rw [interpolate, append_assoc, append_assoc]
    refine .expression ?_ hhere (hwell.braces rfl) hsettled (ih hbrackets htame hkeys hsilent)
    -- the text before the phrase ends that of all before it
    have hbraces := hx.braces
    rw [← take_append_drop cursor (t.take x.1.start), append_assoc] at hbraces
    exact hbraces.right

/-- What becomes of text without expressions: expressions stand in it in the place of its phrases. -/
lemma yields_plainTextSplices (hcall : IsCallName b.callName) (hplain : b.extractor.delimiter.pattern.isPlain)
    (hle : start ≤ stop) (hstop : stop ≤ b.content.length) (hbracket : .scalar '<' ∉ b.content.slice start stop)
    (htame : b.IsTameText keys (b.content.slice start stop)) :
    b.Yields keys start stop (b.plainTextSplices start stop) fun t =>
      .scalar '<' ∉ t ∧ (b.content.slice start stop ≠ [] → t ≠ []) ∧
        ∀ following, (∀ n, b.extractor.delimiter.IsSilent ((b.content.slice start stop).drop n) →
          b.marking.TextSettled ((b.content.slice start stop).drop n ++ following)) →
        b.marking.TextSettled (t ++ following) := by
  intro l out l' hrun hkeys
  have hord := (b.fills_plainTextSplices hle l out l' hrun).1
  obtain ⟨resolved, hgrow, hresolved, rfl⟩ := runs_plainTextSplices hrun
  refine ⟨List.Subset.trans hgrow hkeys, hord, ?_⟩
  have hmarked : resolved.map Prod.fst = b.extractor.delimiter.marked (b.content.slice start stop) :=
    hresolved.phrases_eq
  have hmem : ∀ x ∈ resolved, x.1 ∈ b.extractor.delimiter.phrases (b.content.slice start stop) ∧
      (b.extractor.delimiter.phrase? x.1.full).isSome := fun x hx => hresolved.mem_phrases hx
  have htame' : ∀ x ∈ resolved, b.IsTamePhrase keys (b.content.slice start stop) x.1 := fun x hx =>
    htame x.1 (hmarked ▸ mem_map_of_mem hx)
  have hpayload : ∀ x ∈ resolved, .scalar '<' ∉ x.1.payload := fun x hx hc =>
    hbracket (Delimiter.payload_subset _ (hmem x hx).1 hc)
  have hkeys' : ∀ x ∈ resolved, x.2 ∈ keys := fun x hx => hkeys (hresolved.keys_mem x hx)
  have hphrases : ∀ x ∈ resolved, x.1.stop ≤ stop - start ∧ x.1.start ≤ x.1.stop := by
    intro x hx
    obtain ⟨hx, hmarked⟩ := hmem x hx
    have hlen := (b.extractor.delimiter.mem_phrases hx).1
    rw [length_slice, Nat.min_eq_left hstop] at hlen
    exact ⟨hlen, (b.extractor.delimiter.lt_of_marked hx hmarked).le⟩
  have hpatched := patched_phraseSplices hstop hphrases (show start + 0 ≤ stop from hle)
  rw [Nat.add_zero] at hpatched
  rw [hpatched]
  refine ⟨fun hc => ?_, fun hne => ?_, fun following hlast => ?_⟩
  · rcases mem_interpolate hc with ⟨i, j, hc⟩ | ⟨x, hx, hc⟩
    · exact hbracket (mem_of_mem_take (mem_of_mem_drop hc))
    · have hwell := ((htame' x hx).expression hcall (hpayload x hx) (hkeys' x hx)).2
      simp only [mustache, mem_append] at hc
      rcases hc with (hc | hc) | hc
      · exact absurd hc (by decide)
      · exact hwell.bracket rfl hc
      · exact absurd hc (by decide)
  · cases resolved with
    | nil => rwa [interpolate, Text.slice, take_length, drop_zero]
    | cons x resolved =>
      rw [interpolate]
      simp [mustache, mustacheOpening]
  · refine textSettled_interpolate hcall hpayload htame' hkeys' hlast fun u hu => ?_
    rw [hmarked] at hu
    exact isSilent_of_mem_keptBetween hplain hu

/-! ## Text with expressions -/

/-- Where the parts of an expression in double braces stand, and the text before it. -/
lemma slices_mustache {gap : Text} (ht : t = u ++ (gap ++ (mustache e ++ r))) (hstart : start = u.length) :
    t.slice start (start + gap.length + 2 - 2) = gap ∧
    t.slice (start + gap.length + 2 - 2) (start + gap.length + 2) = mustacheOpening ∧
    t.slice (start + gap.length + 2) (start + gap.length + 2 + e.length) = e ∧
    t.slice (start + gap.length + 2 + e.length) (start + gap.length + 2 + e.length + 2) =
      mustacheClosing := by
  refine ⟨slice_of_eq ht hstart (by omega), ?_, ?_, ?_⟩
  · exact slice_of_eq (u := u ++ gap) (r := e ++ mustacheClosing ++ r) (by rw [ht]; simp [mustache])
      (by rw [length_append]; omega) rfl
  · exact slice_of_eq (u := u ++ gap ++ mustacheOpening) (r := mustacheClosing ++ r)
      (by rw [ht]; simp [mustache]) (by simp [mustacheOpening]; omega) rfl
  · exact slice_of_eq (u := u ++ gap ++ mustacheOpening ++ e) (r := r)
      (by rw [ht]; simp [mustache]) (by simp [mustacheOpening]; omega) rfl

/-- What becomes of text between tags.

**Proof sketch.** Induction on what the scanner of expressions sees. What stands before an expression
opens none, and goes on not to do so with expressions in the place of phrases. -/
theorem yields_textSplices (hcall : IsCallName b.callName) (hplain : b.extractor.delimiter.pattern.isPlain)
    {ms : List (Nat × Nat)} (hscanned : Scanned mustacheAt? start t ms) (hcontent : b.content = u ++ (t ++ r))
    (hstart : start = u.length) (hstop : stop = start + t.length) (hbracket : .scalar '<' ∉ t)
    (hphrases : ∀ span ∈ plainSpans start stop ms, b.IsTameText keys (b.content.slice span.1 span.2))
    (hliterals : ∀ m ∈ ms, b.IsTameExpression none keys (b.content.slice m.1 m.2)) :
    b.Yields keys start stop (b.textSplices start stop ms) fun t' =>
      .scalar '<' ∉ t' ∧ (t ≠ [] → t' ≠ []) ∧ b.marking.TextSettled t' := by
  have hlen : b.content.length = u.length + (t.length + r.length) := by
    rw [hcontent, length_append, length_append]
  induction hscanned generalizing u with
  | @done start gap hgap =>
    have hslice := slice_of_eq hcontent hstart hstop
    have hyields := yields_plainTextSplices hcall hplain (show start ≤ stop by omega) (by omega)
      (by rwa [hslice]) (hphrases (start, stop) mem_cons_self)
    rw [hslice] at hyields
    refine hyields.imp fun t' ⟨hbracket', hne, hsettled⟩ => ⟨hbracket', hne, ?_⟩
    rw [← append_nil t']
    refine hsettled [] fun n hsilent => ?_
    rw [append_nil]
    refine .gap ?_ hsilent
    rw [← take_append_drop n gap] at hgap
    exact hgap.right.move movable_mustacheAt? 0
  | @found start gap v rest x xs hgap hne hfind hrest ih =>
    obtain ⟨e, rfl, hclosed, rfl⟩ := exists_of_mustacheAt? hfind
    have hlen' := length_mustache e
    simp only [length_append, length_mustache] at hstop hlen
    obtain ⟨hgapSlice, hopenSlice, heSlice, hcloseSlice⟩ :=
      slices_mustache (show b.content = u ++ (gap ++ (mustache e ++ (rest ++ r))) by
        rw [hcontent]; simp) hstart
    obtain ⟨hphrase, hphrases⟩ := forall_mem_cons.mp hphrases
    obtain ⟨hliteral, hliterals⟩ := forall_mem_cons.mp hliterals
    simp only [mem_append, mustache, not_or] at hbracket
    obtain ⟨hbracketGap, ⟨⟨-, hbracketE⟩, -⟩, hbracketRest⟩ := hbracket
    have hbefore := yields_plainTextSplices hcall hplain (show start ≤ start + gap.length + 2 - 2 by omega)
      (by omega) (by rwa [hgapSlice]) hphrase
    have hwell : WellPlaced none e :=
      ⟨fun q hq => absurd hq (not_mem_none q), fun _ => hbracketE, fun _ => hclosed⟩
    have hinside := yields_expressionSplices hcall (Nat.le_add_right _ _) (by simp only; omega)
      (by rwa [heSlice]) hliteral
    have hnext : start + gap.length + (mustache e).length = start + gap.length + 2 + e.length + 2 := by
      omega
    rw [hnext] at ih
    have hafter := ih (u := u ++ gap ++ mustache e) (by rw [hcontent]; simp)
      (by simp only [length_append, length_mustache]; omega) (by omega) hbracketRest hphrases
      hliterals (by simp only [length_append, length_mustache]; omega)
    rw [textSplices_cons]
    have hall := (hbefore.both (hinside.advance (Nat.sub_le _ 2))).both
      (hafter.advance (Nat.le_add_right _ 2))
    refine hall.imp ?_
    rintro t' ⟨-, -, rfl, ⟨g, -, rfl, ⟨hg, -, hsettled⟩, e', rfl, he', hwell'⟩, rest', rfl, hrest',
      -, hsettled'⟩
    rw [hgapSlice] at hsettled
    rw [hopenSlice, hcloseSlice]
    have hshape : g ++ (mustacheOpening ++ e') ++ (mustacheClosing ++ rest') =
        g ++ (mustache e' ++ rest') := by simp only [mustache, append_assoc]
    rw [hshape]
    refine ⟨?_, fun _ => by simp [mustache, mustacheOpening], ?_⟩
    · simp only [mem_append, mustache, not_or]
      exact ⟨hg, ⟨⟨by decide, hwell'.bracket rfl⟩, by decide⟩, hrest'⟩
    · refine hsettled _ fun n hsilent => .expression ?_ hsilent (hwell'.braces rfl) he' hsettled'
      have hunpaired := unpaired_of_barren hgap
      rw [← take_append_drop n gap, append_assoc] at hunpaired
      exact hunpaired.right

end TemplateBlock

end Phrasebook
