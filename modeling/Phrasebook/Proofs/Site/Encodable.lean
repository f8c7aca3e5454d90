import Phrasebook.Proofs.Accessor.Encodable
import Phrasebook.Proofs.Site.Collect

/-!
# Sites that can be written out

Everything that takes the place of a site is cut out of the text, or made from keys, payloads and the
name that is called. Of these only the phrases of quoted strings need not stand in the text as they
are, since escapes in the string are decoded.

## Main results

* `Site.isEncodable_replacement`, `isEncodable_renderSpan` — what takes the place of sites.
* `Extractor.IsPlain.gives_collect` — all changes can be written out if those phrases can.
-/

namespace Phrasebook

open List Option Text

variable {resolved : List (Phrase × Key)} {sites : List Site} {l : Literal}
  {write : Phrase → Key → Text} {t raw : Text} {c : Cursor} {imports new : List ImportRequirement}

/-! ## Parts of literals -/

lemma isEncodable_templatePoint {c : CodePoint} (h : c.isSurrogate = false) (rest : Text) :
    (templatePoint c rest).isEncodable := by
  rw [templatePoint]
  split_ifs <;> simp [h]

/-- Escapes bring in no surrogate. -/
lemma isEncodable_escapeSpelled (h : t.isEncodable) : (escapeSpelled t).isEncodable := by
  fun_induction escapeSpelled t with
  | case1 => rfl
  | case2 c rest ih =>
    simp only [isEncodable_cons, Bool.and_eq_true] at h ⊢
    exact ⟨h.1, h.2.1, ih h.2.2⟩
  | case3 c rest _ ih =>
    simp only [isEncodable_cons, Bool.and_eq_true, Bool.not_eq_true'] at h
    rw [isEncodable_append, isEncodable_templatePoint h.1, ih h.2]
    rfl

lemma isEncodable_escapePlain (h : t.isEncodable) : (escapePlain t).isEncodable := by
  induction t with
  | nil => rfl
  | cons c rest ih =>
    simp only [isEncodable_cons, Bool.and_eq_true, Bool.not_eq_true'] at h
    rw [escapePlain, isEncodable_append, ih h.2, Bool.and_true]
    split_ifs
    · exact isEncodable_ofString _
    · exact isEncodable_templatePoint h.1 rest

lemma isEncodable_interpolate {segment : Nat → Nat → Text}
    (hsegment : ∀ start stop, (segment start stop).isEncodable)
    (hwrite : ∀ x ∈ resolved, (write x.1 x.2).isEncodable) (length cursor : Nat) :
    (interpolate segment write length cursor resolved).isEncodable := by
  induction resolved generalizing cursor with
  | nil => exact hsegment _ _
  | cons x resolved ih =>
    obtain ⟨hx, hresolved⟩ := forall_mem_cons.mp hwrite
    rw [interpolate, isEncodable_append, isEncodable_append, hsegment, hx, ih hresolved]
    rfl

lemma isEncodable_spelledTemplate (hraw : raw.isEncodable) (decoded : Decoded)
    (hwrite : ∀ x ∈ resolved, (write x.1 x.2).isEncodable) :
    (spelledTemplate raw decoded write resolved).isEncodable := by
  have hinner := isEncodable_interpolate
    (fun start stop => isEncodable_escapeSpelled (isEncodable_slice hraw
      ((decoded.starts raw.length).getD start raw.length)
      ((decoded.starts raw.length).getD stop raw.length))) hwrite decoded.length 0
  simp only [spelledTemplate, backticked, isEncodable_append, isEncodable_ofString,
    Bool.true_and, Bool.and_true]
  exact hinner

lemma isEncodable_plainTemplate (hraw : raw.isEncodable)
    (hwrite : ∀ x ∈ resolved, (write x.1 x.2).isEncodable) :
    (plainTemplate raw write resolved).isEncodable := by
  have hinner := isEncodable_interpolate
    (fun start stop => isEncodable_escapePlain (isEncodable_slice hraw start stop)) hwrite
    raw.length 0
  simp only [plainTemplate, backticked, isEncodable_append, isEncodable_ofString,
    Bool.true_and, Bool.and_true]
  exact hinner

lemma isEncodable_substitution (h : t.isEncodable) : (substitution t).isEncodable := by
  simp [substitution, h]

/-! ## Literals -/

/-- What a literal takes from the text can be written out. -/
def Literal.IsEncodable : Literal → Prop
  | .quoted raw _ => raw.isEncodable = true
  | .value raw => raw.isEncodable = true
  | .markup raw => raw.isEncodable = true
  | .template text => text.combined.isEncodable = true

lemma TemplateText.isEncodable_of_ofNode? (ht : t.isEncodable) {n : Node} {text : TemplateText}
    (h : TemplateText.ofNode? t n = some text) : text.combined.isEncodable := by
  -- every step adds a part of the text and a marker
  have hfold : ∀ (subs : List Node) (state final : TemplateText × Nat),
      state.1.combined.isEncodable → subs.foldlM (addSubstitution t) state = some final →
        final.1.combined.isEncodable := by
    intro subs
    induction subs with
    | nil =>
      intro state final hstate hfinal
      obtain rfl := some.inj hfinal
      exact hstate
    | cons sub subs ih =>
      intro state final hstate hfinal
      obtain ⟨next, hnext, hrest⟩ := bind_eq_some_iff.mp hfinal
      refine ih next final ?_ hrest
      rw [addSubstitution] at hnext
      split at hnext
      · obtain rfl := some.inj hnext
        simp [hstate, isEncodable_slice ht, markerText]
      · cases hnext
  obtain ⟨⟨before, cursor⟩, hbefore, hpure⟩ := bind_eq_some_iff.mp h
  obtain rfl := some.inj hpure
  simp [hfold _ _ _ rfl hbefore, isEncodable_slice ht]

lemma Literal.isEncodable_of_ofCursor (ht : t.isEncodable) {callNames : List Text}
    (h : Literal.ofCursor t callNames c = .ok (some l)) : l.IsEncodable := by
  rw [ofCursor] at h
  split at h
  · split_ifs at h
    · cases h
    · rw [ofString] at h
      split_ifs at h
      · obtain rfl := some.inj (Except.ok.inj h)
        exact isEncodable_slice ht _ _
      · cases hdecode : decodeLiteral (c.node.inside t) with
        | error failure =>
          rw [hdecode] at h
          cases h
        | ok decoded =>
          rw [hdecode] at h
          obtain rfl := some.inj (Except.ok.inj h)
          exact isEncodable_slice ht _ _
  · split_ifs at h
    · cases h
    · obtain ⟨text, htext, rfl⟩ := map_eq_some_iff.mp (Except.ok.inj h)
      exact TemplateText.isEncodable_of_ofNode? ht htext
  · obtain rfl := some.inj (Except.ok.inj h)
    exact isEncodable_slice ht _ _
  · cases h

/-! ## What takes the place of sites -/

/-- The phrases of a site and their keys can be written out, and so can its literal. -/
structure Site.IsEncodable (s : Site) : Prop where
  literal : s.literal.IsEncodable
  resolved : ∀ x ∈ s.resolved, x.1.payload.isEncodable = true ∧ x.2.isEncodable = true

/-- What takes the place of a site can be written out, up to the expressions of a template. -/
def Replacement.IsEncodable : Replacement → Prop
  | .fixed t => t.isEncodable = true
  | .template s => s.text.combined.isEncodable = true ∧ s.callName.isEncodable = true ∧
      ∀ x ∈ s.resolved, x.1.payload.isEncodable = true ∧ x.2.isEncodable = true

section Replacements

variable {o : Options} (hwrite : o.writeCall = none) {callName : Text}
  (hname : callName.isEncodable = true)

include hwrite hname in
/-- **What takes the place of a site.** -/
theorem Site.isEncodable_replacement {s : Site} (h : s.IsEncodable) :
    (s.replacement o callName).IsEncodable := by
  have hlookup : ∀ x ∈ s.resolved, ∀ arguments : List Argument,
      (∀ a ∈ arguments, a.isEncodable) → ∀ blockOnly,
        (o.lookup callName x.2 x.1.payload arguments blockOnly).isEncodable :=
    fun x hx arguments harguments blockOnly => Options.isEncodable_lookup hwrite hname
      (h.resolved x hx).2 (h.resolved x hx).1 harguments blockOnly
  have hsingle : ∀ blockOnly, (s.single o callName blockOnly).isEncodable := by
    intro blockOnly
    rw [single]
    cases hhead : s.resolved.head? with
    | none => rfl
    | some x => exact hlookup x (mem_of_head? hhead) [] (forall_mem_nil _) blockOnly
  have hembedded : ∀ x ∈ s.resolved, (o.embedded callName x.1 x.2).isEncodable := fun x hx =>
    isEncodable_substitution (hlookup x hx [] (forall_mem_nil _) true)
  have hliteral := h.literal
  rw [replacement]
  cases hkind : s.literal with
  | quoted raw decoded =>
    rw [hkind] at hliteral
    simp only [Replacement.IsEncodable]
    split_ifs
    · exact hsingle _
    · exact isEncodable_spelledTemplate hliteral decoded hembedded
  | value raw =>
    rw [hkind] at hliteral
    simp only [Replacement.IsEncodable, braced, isEncodable_append, isEncodable_ofString,
      Bool.true_and, Bool.and_true]
    split_ifs
    · exact hsingle _
    · exact isEncodable_plainTemplate hliteral hembedded
  | markup raw =>
    rw [hkind] at hliteral
    refine isEncodable_interpolate (fun start stop => isEncodable_slice hliteral start stop)
      (fun x hx => ?_) _ _
    have hcall := hlookup x hx _
      (fun a ha => isEncodable_of_mem_informalArguments (h.resolved x hx).1 ha) true
    simp [braced, hcall]
  | template text =>
    rw [hkind] at hliteral
    exact ⟨hliteral, hname, h.resolved⟩

include hwrite in
/-- What takes the place of a template, if its expressions can be written out. -/
lemma Replacement.isEncodable_build {r : Replacement} (h : r.IsEncodable)
    {render : TemplateSite.Renderer} (hrender : ∀ start stop, (render start stop).isEncodable) :
    (r.build o render).isEncodable := by
  cases r with
  | fixed t => exact h
  | template s =>
    obtain ⟨hcombined, hname, hresolved⟩ := h
    have harguments : ∀ p, ∀ a ∈ s.arguments render p, a.isEncodable := by
      intro p a ha
      obtain ⟨i, hi, rfl⟩ := mem_mapIdx.mp ha
      simp [Argument.isEncodable, hrender]
    have hlookup : ∀ x ∈ s.resolved, ∀ blockOnly,
        (s.lookup o render blockOnly x.1 x.2).isEncodable := fun x hx blockOnly =>
      Options.isEncodable_lookup hwrite hname (hresolved x hx).2 (hresolved x hx).1 (harguments _) _
    have hfill : ∀ (markers : List Marker) (cursor stop : Nat),
        (s.fillMarkers render cursor stop markers).isEncodable := by
      intro markers
      induction markers with
      | nil => exact fun _ _ => isEncodable_slice hcombined _ _
      | cons m rest ih =>
        intro cursor stop
        simp [TemplateSite.fillMarkers, isEncodable_slice hcombined,
          isEncodable_substitution (hrender _ _), ih]
    rw [build, TemplateSite.build.eq_def]
    split
    · rename_i p key rest _ hcons
      exact hlookup (p, key) (by rw [hcons]; exact mem_cons_self) _
    · simp only [backticked, isEncodable_append, isEncodable_ofString, Bool.true_and,
        Bool.and_true]
      exact isEncodable_interpolate (fun start stop => hfill _ _ _)
        (fun x hx => isEncodable_substitution (hlookup x hx true)) _ _

end Replacements

/-! ## Collecting -/

lemma outermost_subset (edits : List PendingEdit) : outermost edits ⊆ edits := by
  have hdrop : ∀ (edits : List PendingEdit) (last : Option PendingEdit),
      dropNested last edits ⊆ edits := by
    intro edits
    induction edits with
    | nil => exact fun _ _ h => h
    | cons e rest ih =>
      intro last
      rw [dropNested]
      split_ifs
      · exact subset_cons_of_subset e (ih last)
      · exact cons_subset_cons e (ih (some e))
  exact List.Subset.trans (hdrop _ none) (sortAscending_perm _ edits).subset

/-- **A span with all edits in it.** -/
theorem isEncodable_renderSpan {o : Options} (hwrite : o.writeCall = none) (ht : t.isEncodable)
    {edits : List PendingEdit} (hedits : ∀ e ∈ edits, e.replacement.IsEncodable) (depth start stop : Nat) :
    (renderSpan o t edits depth start stop).isEncodable := by
  induction depth generalizing start stop with
  | zero => exact isEncodable_slice ht start stop
  | succ depth ih =>
    have hrender : ∀ (chosen : List PendingEdit) (cursor : Nat),
        (∀ e ∈ chosen, e.replacement.IsEncodable) →
          (renderEdits t (Replacement.build o (renderSpan o t edits depth)) cursor stop
            chosen).isEncodable := by
      intro chosen
      induction chosen with
      | nil => exact fun cursor _ => isEncodable_slice ht cursor stop
      | cons e rest ihrest =>
        intro cursor hchosen
        obtain ⟨he, hrest⟩ := forall_mem_cons.mp hchosen
        rw [renderEdits, isEncodable_append, isEncodable_append, isEncodable_slice ht,
          Replacement.isEncodable_build hwrite he ih, ihrest _ hrest]
        rfl
    refine hrender _ _ fun e he => hedits e ?_
    exact (mem_filter.mp (outermost_subset _ he)).1

/-- The edits of sites, each with a name that is called in some scope. -/
lemma mem_edits_survey {surveyor : Surveyor} {s : Survey} {e : PendingEdit}
    (h : e ∈ (sites.foldl (Survey.visit surveyor) s).edits) :
    e ∈ s.edits ∨ ∃ site ∈ sites, ∃ scope owner, e.replacement =
      site.replacement surveyor.options (surveyor.options.convention scope owner).callName := by
  induction sites generalizing s with
  | nil => exact .inl h
  | cons site sites ih =>
    rcases ih h with h | ⟨site', hsite', hreplacement⟩
    · rcases mem_append.mp h with h | h
      · exact .inl h
      · obtain rfl := mem_singleton.mp h
        exact .inr ⟨site, mem_cons_self, _, _, rfl⟩
    · exact .inr ⟨site', mem_cons_of_mem site hsite', hreplacement⟩

/-- No function of the caller writes anything, and what is given can be written out. -/
structure Extractor.IsPlain (e : Extractor) : Prop where
  text : e.text.isEncodable = true
  options : e.options.IsPlain
  catalogue : e.catalogue.IsEncodable

lemma forall_mem_foldl_addImport {P : ImportRequirement → Prop}
    (h : ∀ r ∈ imports, P r) (hnew : ∀ r ∈ new, P r) : ∀ r ∈ new.foldl addImport imports, P r := by
  refine List.foldlRecOn new addImport h (motive := fun l => ∀ r ∈ l, P r) fun l hl r hr => ?_
  rw [addImport]
  split_ifs
  · exact hl
  · exact forall_mem_append.mpr ⟨hl, forall_mem_singleton.mpr (hnew r hr)⟩

/-- Accessors that are added, each unless one is acquired in its function. -/
lemma forall_mem_foldl_addAcquisition {P : Acquisition → Prop} {acquisitions new : List Acquisition}
    (h : ∀ a ∈ acquisitions, P a) (hnew : ∀ a ∈ new, P a) :
    ∀ a ∈ new.foldl addAcquisition acquisitions, P a := by
  refine List.foldlRecOn new addAcquisition h (motive := fun l => ∀ a ∈ l, P a) fun l hl a ha => ?_
  rw [addAcquisition]
  split_ifs
  · exact hl
  · exact forall_mem_append.mpr ⟨hl, forall_mem_singleton.mpr (hnew a ha)⟩

lemma foldl_addImport_ne_nil (h : imports ≠ [] ∨ new ≠ []) : new.foldl addImport imports ≠ [] := by
  have hadd : ∀ (imports : List ImportRequirement) (r : ImportRequirement), addImport imports r ≠ [] := by
    intro imports r
    rw [addImport]
    split_ifs with hmem
    · exact ne_nil_of_mem (contains_iff_mem.mp hmem)
    · simp
  cases new with
  | nil => exact h.resolve_right (fun hne => hne rfl)
  | cons r rest =>
    exact List.foldlRecOn rest addImport (hadd imports r) (motive := fun l => l ≠ [])
      fun l _ r _ => hadd l r

/-- Every call needs an import, unless nothing is to be imported. -/
lemma Options.convention_imports_ne_nil (o : Options) (h : o.accessor.noImport = false) (scope : Scope)
    (owner : Option Int) : (o.convention scope owner).imports ≠ [] := by
  unfold convention
  rw [if_neg (by simp [h])]
  split
  · simp [hookConvention]
  · simp [hookConvention]
  · unfold plainConvention
    split
    · simp [customConvention]
    · simp [hookConvention]
    · rw [importConvention]
      split_ifs <;> simp

namespace Extractor

variable {e : Extractor}

/-- The changes of sites can be written out if the sites can. -/
lemma IsPlain.isEncodable_settle (h : e.IsPlain) (moduleScope : Scope) (hsites : ∀ s ∈ sites, s.IsEncodable) :
    ∀ c ∈ (e.settle moduleScope sites).changes, c.replacement.isEncodable := by
  have hedits : ∀ p ∈ (sites.foldl (Survey.visit ⟨e.text, e.options, moduleScope⟩) {}).edits,
      p.replacement.IsEncodable := by
    intro p hp
    rcases mem_edits_survey hp with hp | ⟨site, hsite, scope, owner, hreplacement⟩
    · exact absurd hp not_mem_nil
    · rw [hreplacement]
      exact Site.isEncodable_replacement h.options.writeCall_eq
        (h.options.isEncodable_convention scope owner).callName (hsites site hsite)
  intro c hc
  obtain ⟨p, hp, rfl⟩ := mem_map.mp hc
  exact Replacement.isEncodable_build h.options.writeCall_eq (hedits p (outermost_subset _ hp))
    (isEncodable_renderSpan h.options.writeCall_eq h.text hedits _)

lemma IsPlain.isEncodable_needs (h : e.IsPlain) (moduleScope : Scope) (sites : List Site) :
    (∀ r ∈ (e.settle moduleScope sites).imports, r.IsEncodable) ∧
      ∀ a ∈ (e.settle moduleScope sites).acquisitions, a.IsEncodable := by
  refine List.foldlRecOn sites _ ⟨forall_mem_nil _, forall_mem_nil _⟩
    (motive := fun s : Survey => (∀ r ∈ s.imports, r.IsEncodable) ∧ ∀ a ∈ s.acquisitions, a.IsEncodable)
    fun s ⟨himports, hacquisitions⟩ site _ => ?_
  have hconvention := h.options.isEncodable_convention
    (Surveyor.classify ⟨e.text, e.options, moduleScope⟩ s.memo site.cursor).1.scope
    (Surveyor.classify ⟨e.text, e.options, moduleScope⟩ s.memo site.cursor).1.ownerStart
  exact ⟨forall_mem_foldl_addImport himports hconvention.imports,
    forall_mem_foldl_addAcquisition hacquisitions fun a ha =>
      hconvention.acquisition a (mem_toList.mp ha)⟩

/-- Sites need imports, unless nothing is to be imported. -/
lemma eq_nil_of_settle_imports (e : Extractor) (moduleScope : Scope)
    (himport : e.options.accessor.noImport = false) (h : (e.settle moduleScope sites).imports = []) :
    sites = [] := by
  cases sites with
  | nil => rfl
  | cons site rest =>
    refine absurd h ?_
    have hfirst : (Survey.visit ⟨e.text, e.options, moduleScope⟩ {} site).imports ≠ [] :=
      foldl_addImport_ne_nil (.inr (e.options.convention_imports_ne_nil himport _ _))
    exact List.foldlRecOn rest _ hfirst (motive := fun s : Survey => s.imports ≠ [])
      fun s hs site _ => foldl_addImport_ne_nil (.inl hs)

/-- The phrases that are marked in the quoted strings at some nodes. -/
def phrasesAt (e : Extractor) (cursors : List Cursor) : List Phrase :=
  cursors.flatMap fun c =>
    match Literal.ofCursor e.text e.options.callNames c with
    | .ok (some (.quoted _ decoded)) => e.delimiter.marked decoded.text
    | _ => []

/-- The phrases that are marked in the quoted strings of a text. -/
def spelledPhrases (e : Extractor) (root : Node) : List Phrase := e.phrasesAt root.cursors

/-- The phrases of a literal can be written out, if those of a quoted string can. -/
lemma IsPlain.isEncodable_phrase (h : e.IsPlain)
    (hl : Literal.ofCursor e.text e.options.callNames c = .ok (some l))
    (hclean : ∀ p ∈ e.phrasesAt [c], p.isEncodable) {p : Phrase} (hp : p ∈ l.phrases e.delimiter)
    (hmarked : (e.delimiter.phrase? p.full).isSome) : p.isEncodable := by
  have hliteral := Literal.isEncodable_of_ofCursor h.text hl
  cases l with
  | quoted raw decoded =>
    refine hclean p ?_
    rw [phrasesAt, flatMap_singleton, hl]
    exact mem_filter.mpr ⟨hp, hmarked⟩
  | value raw | markup raw => exact Delimiter.isEncodable_of_mem_phrases hliteral hp
  | template text =>
    exact Delimiter.isEncodable_of_mem_phrases hliteral (mem_filter.mp hp).1

variable {strict : Bool}

lemma IsPlain.gives_resolvePhrases (h : e.IsPlain) (location : Location) {phrases : List Phrase}
    (hphrases : strict → ∀ p ∈ phrases, (e.delimiter.phrase? p.full).isSome → p.isEncodable) :
    Gives (Ledger.IsPlain strict) (e.resolvePhrases location phrases) fun resolved =>
      ∀ x ∈ resolved, x.1 ∈ phrases ∧ (e.delimiter.phrase? x.1.full).isSome ∧
        (x.1.full.isEncodable → x.2.isEncodable) := by
  induction phrases with
  | nil => exact .pure (forall_mem_nil _)
  | cons p rest ih =>
    refine Gives.resolved ?_ ?_
    · refine (gives_resolveKey h.options.keys h.catalogue fun hstrict hmarked => ?_).imp
        fun key hkey k hk => ⟨mem_cons_self, hkey k hk⟩
      exact (Phrase.isEncodable_iff.mp (hphrases hstrict p mem_cons_self hmarked)).1
    · refine (ih fun hstrict p hp => hphrases hstrict p (mem_cons_of_mem _ hp)).imp
        fun resolved hresolved x hx => ?_
      exact ⟨mem_cons_of_mem p (hresolved x hx).1, (hresolved x hx).2⟩

lemma IsPlain.gives_resolveLiteral (h : e.IsPlain) (c : Cursor)
    (hl : Literal.ofCursor e.text e.options.callNames c = .ok (some l))
    (hstrict : strict → ∀ p ∈ e.phrasesAt [c], p.isEncodable) :
    Gives (Ledger.IsPlain strict) (e.resolveLiteral c l) fun site =>
      (∀ p ∈ e.phrasesAt [c], p.isEncodable) → ∀ s ∈ site, s.IsEncodable := by
  rw [resolveLiteral]
  refine Gives.bind (h.gives_resolvePhrases _ fun hs p hp hmarked =>
    h.isEncodable_phrase hl (hstrict hs) hp hmarked) fun resolved hresolved => ?_
  split_ifs
  · exact .pure fun _ s hs => absurd hs (by simp)
  · refine .pure fun hclean s hs => ?_
    obtain rfl := mem_some.mp hs
    refine ⟨Literal.isEncodable_of_ofCursor h.text hl, fun x hx => ?_⟩
    obtain ⟨hmem, hmarked, hkey⟩ := hresolved x hx
    obtain ⟨hfull, hpayload⟩ :=
      Phrase.isEncodable_iff.mp (h.isEncodable_phrase hl hclean hmem hmarked)
    exact ⟨hpayload, hkey hfull⟩

lemma IsPlain.gives_resolve (h : e.IsPlain) (c : Cursor)
    (hstrict : strict → ∀ p ∈ e.phrasesAt [c], p.isEncodable) :
    Gives (Ledger.IsPlain strict) (e.resolve e.options.callNames c) fun site =>
      (∀ p ∈ e.phrasesAt [c], p.isEncodable) → ∀ s ∈ site, s.IsEncodable := by
  rw [resolve]
  cases hl : Literal.ofCursor e.text e.options.callNames c with
  | error failure => exact .throw
  | ok found =>
    cases found with
    | none => exact .pure fun _ s hs => absurd hs (by simp)
    | some l => exact h.gives_resolveLiteral c hl hstrict

lemma IsPlain.gives_resolveAll (h : e.IsPlain) {cursors : List Cursor}
    (hstrict : strict → ∀ p ∈ e.phrasesAt cursors, p.isEncodable) :
    Gives (Ledger.IsPlain strict) (e.resolveAll e.options.callNames cursors) fun sites =>
      (∀ p ∈ e.phrasesAt cursors, p.isEncodable) → ∀ s ∈ sites, s.IsEncodable := by
  induction cursors with
  | nil => exact .pure fun _ => forall_mem_nil _
  | cons c rest ih =>
    have hsplit : e.phrasesAt (c :: rest) = e.phrasesAt [c] ++ e.phrasesAt rest := by
      simp [phrasesAt]
    simp only [hsplit, forall_mem_append] at hstrict ⊢
    refine Gives.bind (h.gives_resolve c fun hs => (hstrict hs).1) fun site hsite =>
      Gives.bind (ih fun hs => (hstrict hs).2) fun others hothers => .pure fun hclean => ?_
    refine forall_mem_append.mpr ⟨fun s hs => ?_, hothers hclean.2⟩
    exact hsite hclean.1 s (mem_toList.mp hs)

/-- What collecting gives can be written out, the changes at least if `clean` holds; without imports to
be brought in there are no changes, unless nothing is to be imported. -/
structure Collected.IsPlain (o : Options) (clean : Prop) (c : Collected) : Prop where
  changes : clean → ∀ change ∈ c.changes, change.replacement.isEncodable = true
  imports : ∀ r ∈ c.imports, r.IsEncodable
  acquisitions : ∀ a ∈ c.acquisitions, a.IsEncodable
  changes_eq : o.accessor.noImport = false → c.imports = [] → c.changes = []

/-- **The changes of a text** can be written out if the phrases in its quoted strings can. -/
theorem IsPlain.gives_collect (h : e.IsPlain) (moduleScope : Scope) (root : Node)
    (hstrict : strict → ∀ p ∈ e.spelledPhrases root, p.isEncodable) :
    Gives (Ledger.IsPlain strict) (e.collect moduleScope root)
      (Collected.IsPlain e.options (∀ p ∈ e.spelledPhrases root, p.isEncodable)) := by
  intro l c l' hrun hl
  obtain ⟨sites, hsites, rfl⟩ := runs_collect hrun
  obtain ⟨hl', hclean⟩ := h.gives_resolveAll hstrict l sites l' hsites hl
  exact ⟨hl', {
    changes := fun hp => h.isEncodable_settle moduleScope (hclean hp)
    imports := (h.isEncodable_needs moduleScope sites).1
    acquisitions := (h.isEncodable_needs moduleScope sites).2
    changes_eq := fun himport hnil => by
      rw [e.eq_nil_of_settle_imports moduleScope himport hnil]
      rfl }⟩

end Extractor

end Phrasebook
