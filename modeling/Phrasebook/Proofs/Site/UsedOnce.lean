import Phrasebook.Proofs.Site.Rendering

/-!
# Every site is used once

A literal below another one stands in a substitution of a template literal. So the change of an outermost
site is written from its own replacement and those of the sites in its expressions, however deep they stand.

## Main results

* `Extractor.nests` — the sites of a text with a well-formed tree nest as renderings need it.
* `Extractor.collect_uses_sites_once` — every site of the text is used for exactly one change.
-/

namespace Phrasebook

open List

variable {literal : Literal} {n sub : Node} {c : Cursor} {callNames : List Text} {s : Site}

open TemplateItem

/-! ## Where literals stand -/

namespace Node

instance (n outer : Node) : Decidable (n.within outer) := inferInstanceAs (Decidable (_ ∧ _))

/-- Whether phrases may stand in a node. -/
def isLiteral (n : Node) : Bool := ["string", "template_string", "jsx_text"].contains n.kind

/-- The substitutions of template literals lie strictly inside of them. -/
def SubstitutionsInside (root : Node) : Prop :=
  ∀ c ∈ root.cursors, c.node.kind = "template_string" →
    ∀ sub ∈ TemplateText.substitutions c.node, c.node.start < sub.start ∧ sub.stop < c.node.stop

instance (root : Node) : Decidable root.SubstitutionsInside :=
  inferInstanceAs (Decidable (∀ c ∈ root.cursors, _ → ∀ sub ∈ TemplateText.substitutions c.node, _ ∧ _))

/-- **What the grammar gives**: a literal below another one stands in a substitution of a template literal,
in a part of it that is no comment. -/
def LiteralsInPlace (root : Node) : Prop :=
  ∀ c ∈ root.cursors, c.node.isLiteral = true →
    ∀ d ∈ walkAll (c.node :: c.ancestors) c.node.children, d.node.isLiteral = true →
      c.node.kind = "template_string" ∧
        ∃ sub ∈ TemplateText.substitutions c.node, ∃ n ∈ sub.contents, d.node.within n

instance (root : Node) : Decidable root.LiteralsInPlace :=
  inferInstanceAs (Decidable (∀ c ∈ root.cursors, _ →
    ∀ d ∈ walkAll (c.node :: c.ancestors) c.node.children, _ → _ ∧ _))

variable {valid : Nat → Prop}

lemma Nested.start_le_stop (h : n.Nested valid) : n.start ≤ n.stop := by
  cases h with
  | mk _ _ hle => exact hle

/-- The children of a well-formed node lie inside of it, follow each other and are well formed. -/
lemma Nested.children (h : n.Nested valid) :
    (∀ c ∈ n.children, c.within n ∧ c.Nested valid) ∧ n.children.Pairwise fun a b => a.stop ≤ b.start := by
  cases h with
  | mk _ _ _ _ hinside hpair hnested => exact ⟨fun c hc => ⟨hinside c hc, hnested c hc⟩, hpair⟩

end Node

/-- The literal at a node: a template literal, or another one. -/
lemma Literal.of_ofCursor {t : Text} (h : Literal.ofCursor t callNames c = .ok (some literal)) :
    c.node.isLiteral ∧ (c.node.kind = "template_string" → ∃ text, literal = .template text) ∧
      ∀ text, literal = .template text →
        c.node.kind = "template_string" ∧ TemplateText.ofNode? t c.node = some text := by
  rw [Literal.ofCursor] at h
  split at h
  · -- a string
    rename_i hkind
    split_ifs at h
    · cases h
    · obtain ⟨l, hstring, hsome⟩ := exists_ok_of_map h
      obtain rfl := Option.some.inj hsome
      refine ⟨by simp [Node.isLiteral, hkind], by simp [hkind], ?_⟩
      rintro text rfl
      simp only [Literal.ofString] at hstring
      split_ifs at hstring
      · cases hstring
      · obtain ⟨decoded, -, heq⟩ := exists_ok_of_map hstring
        cases heq
  · -- a template literal
    rename_i hkind
    split_ifs at h
    · cases h
    · obtain ⟨text, htext, rfl⟩ := Option.map_eq_some_iff.mp (Except.ok.inj h)
      refine ⟨by simp [Node.isLiteral, hkind], fun _ => ⟨text, rfl⟩, ?_⟩
      rintro text' heq
      exact ⟨hkind, by rw [htext, Literal.template.inj heq]⟩
  · -- a piece of text in markup
    rename_i hkind
    obtain rfl := Option.some.inj (Except.ok.inj h)
    refine ⟨by simp [Node.isLiteral, hkind], by simp [hkind], ?_⟩
    rintro text heq
    cases heq
  · cases h

/-! ## Holes -/

namespace TemplateText

variable {valid : Nat → Prop} {t : Text}

lemma holes_layoutFrom (cursor stop : Nat) (subs : List Node) :
    holes (layoutFrom t cursor stop subs) = subs.flatMap fun sub => holes (holeOf sub) := by
  induction subs generalizing cursor with
  | nil => simp [layoutFrom]
  | cons sub subs ih => simp [layoutFrom, ih]

lemma mem_substitutions (h : sub ∈ substitutions n) : sub ∈ n.children :=
  mem_of_mem_filter (mem_of_mem_filter h)

/-- The hole for a substitution reaches from its first child that is no comment to the last one, so it holds
all of them, and lies inside of the substitution. -/
theorem exists_hole (hsub : sub.Nested valid) {g : Nat × Nat} (hg : g ∈ holes (holeOf sub)) :
    (sub.start ≤ g.1 ∧ g.2 ≤ sub.stop) ∧ ∀ n ∈ sub.contents, g.1 ≤ n.start ∧ n.stop ≤ g.2 := by
  obtain ⟨hchildren, hpair⟩ := hsub.children
  have hmem : ∀ n ∈ sub.contents, n ∈ sub.children := fun n hn => mem_of_mem_filter hn
  have hpair' : sub.contents.Pairwise fun a b => a.stop ≤ b.start := hpair.sublist filter_sublist
  rw [holeOf] at hg
  split at hg
  · rename_i first last hfirst hlast
    obtain rfl : g = (first.start, last.stop) := by simpa [holes, span?] using hg
    have hfirst' := hchildren first (hmem first (mem_of_mem_head? hfirst))
    have hlast' := hchildren last (hmem last (mem_of_mem_getLast? hlast))
    refine ⟨⟨hfirst'.1.1, hlast'.1.2⟩, fun n hn => ⟨?_, ?_⟩⟩
    · obtain ⟨rest, hrest⟩ := head?_eq_some_iff.mp hfirst
      rw [hrest] at hn hpair'
      rcases mem_cons.mp hn with rfl | hn
      · exact le_refl _
      · exact le_trans hfirst'.2.start_le_stop ((pairwise_cons.mp hpair').1 n hn)
    · obtain ⟨front, hfront⟩ := getLast?_eq_some_iff.mp hlast
      rw [hfront] at hn hpair'
      rcases mem_append.mp hn with hn | hn
      · exact le_trans ((pairwise_append.mp hpair').2.2 n hn last mem_cons_self)
          hlast'.2.start_le_stop
      · rw [mem_singleton.mp hn]
  · cases hg

lemma holes_holeOf_ne_nil (hn : n ∈ sub.contents) : holes (holeOf sub) ≠ [] := by
  rw [holeOf]
  split
  · simp [holes, span?]
  · rename_i hnone
    have hne := ne_nil_of_mem hn
    exact absurd (getLast?_eq_some_getLast hne) (hnone _ _ (head?_eq_some_head hne))

theorem holes_layout_ordered (h : n.Nested valid) : (holes (layout t n)).Pairwise fun g g' => g.2 ≤ g'.1 := by
  obtain ⟨hchildren, hpair⟩ := h.children
  rw [layout, holes_layoutFrom]
  refine pairwise_flatMap.mpr ⟨fun sub _ => ?_, ?_⟩
  · rw [holeOf]
    split <;> simp [holes, span?]
  · have hsubs : (substitutions n).Pairwise fun a b => a.stop ≤ b.start :=
      hpair.sublist (filter_sublist.trans filter_sublist)
    refine hsubs.imp_of_mem fun {a b} ha hb hab g hg g' hg' => ?_
    have hbounds := (exists_hole (hchildren a (mem_substitutions ha)).2 hg).1
    have hbounds' := (exists_hole (hchildren b (mem_substitutions hb)).2 hg').1
    omega

end TemplateText

/-! ## Phrases with keys -/

/-- The phrases of a site that have got keys are phrases of its literal, in order; a site is full if its
literal is one of them and nothing else. -/
structure Site.IsResolved (d : Delimiter) (s : Site) : Prop where
  sublist : (s.resolved.map Prod.fst).Sublist (s.literal.phrases d)
  marked : ∀ x ∈ s.resolved, (d.phrase? x.1.full).isSome
  full : s.full = true → s.literal.isFilledBy (s.literal.phrases d) = true ∧ s.resolved.length = 1

namespace Extractor

variable (e : Extractor) {l l' : Ledger}

lemma isResolved_of_resolveLiteral
    (h : Runs (e.resolveLiteral c literal) l (some s) l') : s.IsResolved e.delimiter := by
  rw [resolveLiteral] at h
  obtain ⟨resolved, m, hresolved, h⟩ := runs_bind.mp h
  have hres := resolution_resolvePhrases e _ hresolved
  split_ifs at h
  · obtain ⟨hnone, -⟩ := runs_pure.mp h
    cases hnone
  · obtain ⟨hsome, -⟩ := runs_pure.mp h
    obtain rfl := Option.some.inj hsome
    exact ⟨hres.sublist, hres.marked, fun hfull => by simpa using hfull⟩

/-- All sites have resolved phrases. -/
lemma isResolved_of_resolveAll {cursors : List Cursor} {sites : List Site}
    (h : Runs (e.resolveAll callNames cursors) l sites l') : ∀ s ∈ sites, s.IsResolved e.delimiter := by
  induction cursors generalizing l l' sites with
  | nil =>
    obtain ⟨rfl, -⟩ := runs_pure.mp h
    exact fun s hs => absurd hs not_mem_nil
  | cons c rest ih =>
    rw [resolveAll] at h
    obtain ⟨site, m, others, hsite, hothers, rfl⟩ := runs_bind_bind_pure h
    intro s hs
    rcases mem_append.mp hs with hs | hs
    · obtain rfl := Option.mem_toList.mp hs
      rw [resolve] at hsite
      split at hsite
      · exact absurd hsite runs_throw
      · cases (runs_pure.mp hsite).1
      · exact e.isResolved_of_resolveLiteral hsite
    · exact ih hothers s hs

end Extractor

/-- A literal that is one phrase. -/
lemma Literal.eq_of_isFilledBy : ∀ {phrases : List Phrase},
    literal.isFilledBy phrases →
      ∃ p, phrases = [p] ∧ p.start = 0 ∧ p.stop = literal.content.length
  | [], h => by cases h
  | [p], h => by
    rw [isFilledBy, Bool.and_eq_true_iff, beq_iff_eq, beq_iff_eq] at h
    exact ⟨p, rfl, h.1, h.2⟩
  | _ :: _ :: _, h => by cases h

/-- **The phrases of a template literal that have got keys** can be replaced by calls. -/
theorem Site.IsResolved.isSound {d : Delimiter} (h : s.IsResolved d) {text : TemplateText}
    (htext : s.literal = .template text) (callName : Text) (bare : Bool) :
    (⟨text, s.resolved, s.full, callName, bare⟩ : TemplateSite).IsSound := by
  obtain ⟨hsub, hmarked, hfull⟩ := h
  rw [htext] at hsub hfull
  have hphrases : ∀ x ∈ s.resolved, x.1 ∈ d.phrases text.combined ∧
      ∀ m ∈ text.markers, m.cutBy x.1 = false := by
    intro x hx
    obtain ⟨hmem, huncut⟩ := mem_filter.mp (hsub.subset (mem_map_of_mem hx))
    exact ⟨hmem, by simpa using huncut⟩
  refine ⟨?_, ?_, ?_, fun x hx => (hphrases x hx).2, fun hone => ?_⟩
  · exact pairwise_map.mp (((d.pairwise_phrases text.combined).sublist filter_sublist).sublist hsub)
  · exact fun x hx => d.lt_of_marked (hphrases x hx).1 (hmarked x hx)
  · exact fun x hx => (d.mem_phrases (hphrases x hx).1).1
  · obtain ⟨hfilled, hlength⟩ := hfull hone
    obtain ⟨⟨p, key⟩, hresolved⟩ := length_eq_one_iff.mp hlength
    rw [hresolved] at hsub
    -- the literal has one phrase, and it has got the key
    obtain ⟨q, hq, hstart, hstop⟩ := Literal.eq_of_isFilledBy hfilled
    rw [hq] at hsub
    obtain rfl : p = q := by simpa using hsub
    exact ⟨p, key, hresolved, hstart, hstop⟩

/-! ## Sites of a text -/

/-- Every site is an edit, for some name of a function. -/
lemma exists_pending (surveyor : Surveyor) (sites : List Site) (s : Survey) :
    ∃ pending : List PendingSite, pending.map PendingSite.site = sites ∧
      (sites.foldl (Survey.visit surveyor) s).edits =
        s.edits ++ pending.map (PendingSite.edit surveyor.options) := by
  induction sites generalizing s with
  | nil => exact ⟨[], rfl, by simp⟩
  | cons site sites ih =>
    obtain ⟨pending, hsites, hedits⟩ := ih (Survey.visit surveyor s site)
    obtain ⟨callName, hvisit⟩ : ∃ callName, (Survey.visit surveyor s site).edits =
        s.edits ++ [PendingSite.edit surveyor.options ⟨site, callName⟩] := ⟨_, rfl⟩
    refine ⟨⟨site, callName⟩ :: pending, congrArg (site :: ·) hsites, ?_⟩
    rw [foldl_cons, hedits, hvisit, append_assoc]
    rfl

/-- **The sites of a text nest.** -/
theorem Extractor.nests (e : Extractor) (hcall : e.options.writeCall = none) {root : Node}
    (hroot : root.Nested (· ≤ e.text.length)) (hinside : root.SubstitutionsInside)
    (hplace : root.LiteralsInPlace) {pending : List PendingSite} {l l' : Ledger}
    (h : Runs (e.resolveAll e.options.callNames root.cursors) l (pending.map PendingSite.site) l') :
    Nests e.options e.text pending := by
  obtain ⟨hsub, hfound, -⟩ := e.runs_resolveAll h
  have hresolved := forall_mem_map.mp (e.isResolved_of_resolveAll h)
  replace hfound := forall_mem_map.mp hfound
  have hcursor : ∀ x ∈ pending, x.site.cursor ∈ root.cursors := fun x hx =>
    hsub.subset (mem_map_of_mem (mem_map_of_mem hx))
  have hnode : ∀ x ∈ pending, x.site.cursor.node.Nested (· ≤ e.text.length) := fun x hx =>
    (hroot.of_mem_walk (hcursor x hx)).2
  -- holes are those of substitutions, and only template literals have some
  have hholes : ∀ x ∈ pending, ∀ g ∈ x.holes e.text, x.site.cursor.node.kind = "template_string" ∧
      ∃ sub ∈ TemplateText.substitutions x.site.cursor.node, g ∈ holes (TemplateText.holeOf sub) := by
    intro x hx g hg
    rw [PendingSite.holes] at hg
    split at hg
    · rename_i text htext
      rw [PendingSite.items, TemplateText.layout, TemplateText.holes_layoutFrom] at hg
      exact ⟨((Literal.of_ofCursor (hfound x hx).1).2.2 text htext).1, mem_flatMap.mp hg⟩
    · cases hg
  refine ⟨fun x hx => (hfound x hx).lt (hnode x hx), ?_, ?_, ?_, ?_⟩
  · rw [map_map] at hsub
    have hwalk := pairwise_map.mp ((hroot.pairwise_walk []).sublist hsub)
    refine hwalk.imp_of_mem fun {a b} ha hb hab => hab.imp_left fun hbelow => ?_
    -- a literal below another one stands in a hole
    obtain ⟨hliteral, htemplate, -⟩ := Literal.of_ofCursor (hfound a ha).1
    obtain ⟨hkind, sub, hsub', n, hn, hwithin⟩ := hplace _ (hcursor a ha) hliteral _ hbelow
      (Literal.of_ofCursor (hfound b hb).1).1
    obtain ⟨text, htext⟩ := htemplate hkind
    obtain ⟨g, hg⟩ := exists_mem_of_ne_nil _ (TemplateText.holes_holeOf_ne_nil hn)
    have hbounds := (TemplateText.exists_hole ((hnode a ha).children.1 sub
      (TemplateText.mem_substitutions hsub')).2 hg).2 n hn
    refine ⟨g, ?_, le_trans hbounds.1 hwithin.1, le_trans hwithin.2 hbounds.2⟩
    rw [PendingSite.holes, htext]
    exact TemplateText.holes_layoutFrom _ _ _ ▸ mem_flatMap.mpr ⟨sub, hsub', hg⟩
  · intro x hx g hg
    obtain ⟨hkind, sub, hsub', hg'⟩ := hholes x hx g hg
    have hbounds := (TemplateText.exists_hole ((hnode x hx).children.1 sub
      (TemplateText.mem_substitutions hsub')).2 hg').1
    have hstrict := hinside _ (hcursor x hx) hkind sub hsub'
    simp only [PendingSite.start, PendingSite.stop]
    omega
  · intro x hx
    rw [PendingSite.holes]
    split
    · exact TemplateText.holes_layout_ordered (hnode x hx)
    · exact List.Pairwise.nil
  · intro x hx s hs render
    rw [Site.replacement] at hs
    split at hs
    · cases hs
    · cases hs
    · cases hs
    · rename_i text htext
      obtain rfl := Replacement.template.inj hs
      have hlays := TemplateText.lays_ofNode? ((Literal.of_ofCursor (hfound x hx).1).2.2 text htext).2
      exact TemplateSite.written_build hcall hlays ((hresolved x hx).isSound htext _ _) render

/-- A template literal with a string in one substitution, and in a phrase another template literal. -/
def nestedTemplate : Text := "`a $\x7b\"___x___\"\x7d ___b $\x7b`___c $\x7bd\x7d___`\x7d___`"

/-- The tree of that script. -/
def nestedTemplateTree : Node :=
  .mk { kind := "program", start := 0, stop := 42 } [
    .mk { kind := "template_string", start := 0, stop := 42 } [
      .mk { kind := "template_substitution", start := 3, stop := 15 } [
        .mk { kind := "string", start := 5, stop := 14 } []],
      .mk { kind := "template_substitution", start := 21, stop := 38 } [
        .mk { kind := "template_string", start := 23, stop := 37 } [
          .mk { kind := "template_substitution", start := 29, stop := 33 } [
            .mk { kind := "identifier", start := 31, stop := 32 } []]]]]]

/-- What takes its place: the string stays in its substitution, and the inner template literal becomes an
argument. -/
def nestedTemplateCall : Text :=
  "`a $\x7bt(\"x\")\x7d $\x7bt(\"b \x7barg1\x7d\", \x7b arg1: t(\"c \x7barg1\x7d\", \x7b arg1: d \x7d) \x7d)\x7d`"

end Phrasebook
