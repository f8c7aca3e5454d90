import Phrasebook.Proofs.Message.Bookkeeping
import Phrasebook.Proofs.Sorting
import Phrasebook.Site.Collect

/-!
# What is collected

A text is collected node by node. Each node with a phrase that gets a key is a site, each site is an
edit, and the outermost of the edits are the changes.

## Main results

* `runs_collect` — what is collected comes from the sites of the text.
* `runs_collect_of_no_changes` — a text without changes has no sites: its calls need nothing, and nothing
  has been recorded.
-/

namespace Phrasebook

open List

variable {c : Cursor} {callNames : List Text} {site : Option Site} {sites : List Site}

/-! ## Sites -/

/-- A site comes from a literal of the text, in which a phrase stands that is one when read again. -/
def Site.IsFound (e : Extractor) (callNames : List Text) (s : Site) : Prop :=
  Literal.ofCursor e.text callNames s.cursor = .ok (some s.literal) ∧
    ∃ p ∈ s.literal.phrases e.delimiter, (e.delimiter.phrase? p.full).isSome

namespace Extractor

variable (e : Extractor) {l l' : Ledger}

/-- A literal becomes a site if one of its phrases gets a key; else nothing is recorded. -/
lemma runs_resolveLiteral {literal : Literal} (h : Runs (e.resolveLiteral c literal) l site l') :
    (site = none ∧ l' = l) ∨ ∃ s, site = some s ∧ s.cursor = c ∧ s.literal = literal ∧
      ∃ p ∈ literal.phrases e.delimiter, (e.delimiter.phrase? p.full).isSome := by
  rw [resolveLiteral] at h
  obtain ⟨resolved, m, hresolved, h⟩ := runs_bind.mp h
  have hres := resolution_resolvePhrases e _ hresolved
  split_ifs at h with hnil
  · obtain ⟨rfl, rfl⟩ := runs_pure.mp h
    exact .inl ⟨rfl, hres.sparing (List.isEmpty_iff.mp hnil)⟩
  · obtain ⟨rfl, rfl⟩ := runs_pure.mp h
    refine .inr ⟨_, rfl, rfl, rfl, ?_⟩
    obtain ⟨x, hx⟩ := exists_mem_of_ne_nil resolved (by simpa using hnil)
    exact ⟨x.1, hres.sublist.subset (mem_map_of_mem hx), hres.marked x hx⟩

lemma runs_resolve (h : Runs (e.resolve callNames c) l site l') :
    (site = none ∧ l' = l) ∨ ∃ s, site = some s ∧ s.cursor = c ∧ s.IsFound e callNames := by
  rw [resolve] at h
  split at h
  · exact absurd h runs_throw
  · exact .inl (runs_pure.mp h)
  · rename_i literal hliteral
    rcases e.runs_resolveLiteral h with hnone | ⟨s, rfl, rfl, rfl, hphrase⟩
    · exact .inl hnone
    · exact .inr ⟨s, rfl, rfl, hliteral, hphrase⟩

/-- The sites of nodes, one after the other, with keys for their phrases. -/
def resolveAll (e : Extractor) (callNames : List Text) : List Cursor → Bookkeeping (List Site)
  | [] => return []
  | c :: rest => do
    let site ← e.resolve callNames c
    let others ← e.resolveAll callNames rest
    return site.toList ++ others

/-- **The sites of a text** stand in the order of the nodes, and without sites nothing is recorded. -/
theorem runs_resolveAll {cursors : List Cursor} (h : Runs (e.resolveAll callNames cursors) l sites l') :
    (sites.map Site.cursor).Sublist cursors ∧ (∀ s ∈ sites, s.IsFound e callNames) ∧
      (sites = [] → l' = l) := by
  induction cursors generalizing l sites with
  | nil =>
    obtain ⟨rfl, rfl⟩ := runs_pure.mp h
    exact ⟨List.Sublist.slnil, by simp, fun _ => rfl⟩
  | cons c rest ih =>
    rw [resolveAll] at h
    obtain ⟨site, m, others, hsite, hothers, rfl⟩ := runs_bind_bind_pure h
    obtain ⟨hsub, hfound, hsparing⟩ := ih hothers
    rcases e.runs_resolve hsite with ⟨rfl, rfl⟩ | ⟨s, rfl, rfl, hs⟩
    · exact ⟨hsub.cons _, hfound, hsparing⟩
    · refine ⟨hsub.cons_cons _, ?_, fun hnil => by simp at hnil⟩
      rintro s' (_ | ⟨_, hs'⟩)
      · exact hs
      · exact hfound s' hs'

end Extractor

/-! ## Edits -/

/-- Where an edit stands. -/
def PendingEdit.span (e : PendingEdit) : Nat × Nat := (e.start, e.stop)

/-- Where a site stands. -/
def Site.span (s : Site) : Nat × Nat := (s.cursor.node.start, s.cursor.node.stop)

/-- **Every site is an edit** at its place. -/
theorem span_survey (surveyor : Surveyor) (sites : List Site) (s : Survey) :
    (sites.foldl (Survey.visit surveyor) s).edits.map PendingEdit.span =
      s.edits.map PendingEdit.span ++ sites.map Site.span := by
  induction sites generalizing s with
  | nil => simp
  | cons site sites ih =>
    rw [foldl_cons, ih, Survey.visit, map_append, append_assoc]
    rfl

/-- Some edit is outermost if there is any. -/
theorem outermost_eq_nil_iff {edits : List PendingEdit} : outermost edits = [] ↔ edits = [] := by
  have hdrop : ∀ l, dropNested none l = [] ↔ l = [] := by
    intro l
    cases l <;> simp [dropNested]
  rw [outermost, hdrop, ← length_eq_zero_iff, (sortAscending_perm _ edits).length_eq,
    length_eq_zero_iff]

namespace Extractor

/-- The changes of sites, and what their calls need. -/
def settle (e : Extractor) (moduleScope : Scope) (sites : List Site) : Collected :=
  let survey := sites.foldl (Survey.visit ⟨e.text, e.options, moduleScope⟩) {}
  let change (p : PendingEdit) : Change :=
    .make e.text e.file p.start p.stop (p.text e.options e.text survey.edits)
  ⟨(outermost survey.edits).map change, survey.imports, survey.acquisitions⟩

/-- A survey visits the sites in their order, after they have got their keys. -/
lemma runs_survey {e : Extractor} {surveyor : Surveyor} {s s' : Survey} {cursors : List Cursor}
    {l l' : Ledger} (h : Runs (e.survey surveyor s cursors) l s' l') :
    ∃ sites, Runs (e.resolveAll e.options.callNames cursors) l sites l' ∧
      s' = sites.foldl (Survey.visit surveyor) s := by
  induction cursors generalizing s l with
  | nil =>
    obtain ⟨rfl, rfl⟩ := runs_pure.mp h
    exact ⟨[], runs_pure.mpr ⟨rfl, rfl⟩, rfl⟩
  | cons c rest ih =>
    rw [survey] at h
    obtain ⟨site, m, hsite, h⟩ := runs_bind.mp h
    have hall : ∀ {s : Survey}, Runs (e.survey surveyor s rest) m s' l' →
        ∃ others, Runs (e.resolveAll e.options.callNames (c :: rest)) l (site.toList ++ others) l' ∧
          s' = others.foldl (Survey.visit surveyor) s := by
      intro s hrest
      obtain ⟨others, hothers, hs'⟩ := ih hrest
      exact ⟨others, runs_bind.mpr ⟨site, m, hsite, runs_bind.mpr
        ⟨others, l', hothers, runs_pure.mpr ⟨rfl, rfl⟩⟩⟩, hs'⟩
    cases site with
    | none =>
      obtain ⟨others, hothers, hs'⟩ := hall h
      exact ⟨_, hothers, hs'⟩
    | some site =>
      obtain ⟨_, -, h⟩ := runs_ofExcept_bind.mp h
      obtain ⟨others, hothers, hs'⟩ := hall h
      exact ⟨_, hothers, hs'⟩

/-- **What is collected** comes from the sites of the text. -/
theorem runs_collect {e : Extractor} {scope : Scope} {root : Node} {c : Collected} {l l' : Ledger}
    (h : Runs (e.collect scope root) l c l') :
    ∃ sites, Runs (e.resolveAll e.options.callNames root.cursors) l sites l' ∧
      c = e.settle scope sites := by
  rw [collect] at h
  obtain ⟨survey, m, hsurvey, h⟩ := runs_bind.mp h
  obtain ⟨hconclude, rfl⟩ := runs_ofExcept.mp h
  obtain ⟨-, -, hc⟩ := exists_ok_of_bind hconclude
  obtain rfl := Except.ok.inj hc
  obtain ⟨sites, hsites, rfl⟩ := runs_survey hsurvey
  exact ⟨sites, hsites, rfl⟩

/-- Every site makes for a change. -/
lemma eq_nil_of_settle_changes (e : Extractor) (scope : Scope)
    (h : (e.settle scope sites).changes = []) : sites = [] := by
  simp only [settle, map_eq_nil_iff, outermost_eq_nil_iff] at h
  have hspans := span_survey ⟨e.text, e.options, scope⟩ sites {}
  rw [h] at hspans
  simpa using hspans.symm

/-- **Without changes there is nothing else**: no import, no accessor, and nothing in the books. -/
theorem runs_collect_of_no_changes (e : Extractor) {scope : Scope} {root : Node} {c : Collected}
    {l l' : Ledger} (h : Runs (e.collect scope root) l c l') (hnil : c.changes = []) :
    c = {} ∧ l' = l := by
  obtain ⟨sites, hsites, rfl⟩ := runs_collect h
  obtain rfl := e.eq_nil_of_settle_changes scope hnil
  exact ⟨rfl, (e.runs_resolveAll hsites).2.2 rfl⟩

end Extractor

end Phrasebook
