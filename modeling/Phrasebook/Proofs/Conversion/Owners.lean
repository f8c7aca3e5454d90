import Phrasebook.Proofs.Accessor.Roles
import Phrasebook.Proofs.Conversion.Steps
import Phrasebook.Proofs.Edit.Anchors
import Phrasebook.Proofs.Site.Encodable
import Phrasebook.Proofs.Site.Outermost

/-!
# The functions that own accessors, and the changes

An accessor is acquired in a function around a site, and the site may stand in a substitution of a
template literal that is a site itself. If the function stands in that substitution too, it is inside
of a change, and nothing tells where it is in the result.

## Main results

* `Survey.owned_foldl` — the owners of accessors are functions around sites.
* `Workbench.finishScript_follows_owners` — the beginning of any other owner is followed.
-/

namespace Phrasebook

open List Option

variable {c : Cursor} {fn root : Node} {valid : Nat → Prop}

/-- A function of a tree around a span. -/
def Node.IsFunctionAround (root fn : Node) (span : Nat × Nat) : Prop :=
  fn.isFunction = true ∧ (∃ outer, ⟨fn, outer⟩ ∈ root.cursors) ∧ fn.start ≤ span.1 ∧ span.2 ≤ fn.stop

/-- A function around a node is one around all that the node holds. -/
lemma Node.IsFunctionAround.of_within {n outer : Node}
    (h : root.IsFunctionAround fn (outer.start, outer.stop)) (hn : n.within outer) :
    root.IsFunctionAround fn (n.start, n.stop) :=
  ⟨h.1, h.2.1, le_trans h.2.2.1 hn.1, le_trans hn.2 h.2.2.2⟩

/-! ## Owners -/

namespace Surveyor

/-- Every owner that is remembered is a function of the tree around the one that was asked about. -/
def Memo.InTree (root : Node) (memo : Memo) : Prop :=
  ∀ x ∈ memo, ∀ owner ∈ x.2.owner, root.IsFunctionAround owner (x.1.1, x.1.2.1)

variable {root : Node} {memo : Memo}

lemma Memo.InTree.put (h : memo.InTree root) {answer : Classification}
    (hanswer : ∀ owner ∈ answer.owner, root.IsFunctionAround owner (fn.start, fn.stop)) :
    Memo.InTree root (put memo fn.identity answer) := by
  intro x hx
  rcases mem_put hx with rfl | hx
  · exact hanswer
  · exact h x hx

/-- **An owner is a function of the tree around the node that is asked about**, also if the answer is a
remembered one.

**Proof sketch.** Induction on the ancestors. What is remembered for a function has an owner around that
function, and so around all that stands in it. -/
theorem classify_inTree (s : Surveyor) (hroot : root.Nested valid) (hc : c ∈ root.cursors)
    (hmemo : memo.InTree root) :
    (∀ owner ∈ (s.classify memo c).1.owner, root.IsFunctionAround owner (c.node.start, c.node.stop)) ∧
      (s.classify memo c).2.InTree root := by
  obtain ⟨node, ancestors⟩ := c
  induction ancestors generalizing node memo with
  | nil => exact ⟨fun owner h => absurd h (not_mem_none owner), hmemo⟩
  | cons n outer ih =>
    have hn : ⟨n, outer⟩ ∈ root.cursors := Node.mem_cursors_of_suffix hc (suffix_refl _)
    have hin : node.within n := hroot.within_of_mem_ancestors hc mem_cons_self
    simp only [classify] at ih ⊢
    rw [classifyIn]
    split_ifs with hfn
    · have hself : root.IsFunctionAround n (n.start, n.stop) :=
        ⟨hfn, ⟨outer, hn⟩, le_refl _, le_refl _⟩
      cases hknown : memo.lookup n.identity with
      | some known =>
        exact ⟨fun owner h => (hmemo _ (mem_of_lookup hknown) owner h).of_within hin, hmemo⟩
      | none =>
        simp only
        have hown := s.owner_classifySelf n outer
        split_ifs with hplain
        · obtain ⟨haround, hmemo'⟩ := ih hmemo n hn
          have hanswer : ∀ owner ∈ (orOuter (s.classifySelf n outer) (s.classifyIn memo outer).1).owner,
              root.IsFunctionAround owner (n.start, n.stop) := by
            rw [orOuter]
            split_ifs
            · rw [hown, if_pos hplain]
              exact fun owner h => absurd h (not_mem_none owner)
            · exact haround
          exact ⟨fun owner h => (hanswer owner h).of_within hin, hmemo'.put hanswer⟩
        · have hanswer : ∀ owner ∈ (s.classifySelf n outer).owner,
              root.IsFunctionAround owner (n.start, n.stop) := by
            rw [hown, if_neg hplain]
            rintro owner ⟨⟩
            exact hself
          exact ⟨fun owner h => (hanswer owner h).of_within hin, hmemo.put hanswer⟩
    · obtain ⟨haround, hmemo'⟩ := ih hmemo n hn
      exact ⟨fun owner h => (haround owner h).of_within hin, hmemo'⟩

end Surveyor

/-- Every accessor is acquired in the module or in a function of the tree around a site. -/
def Survey.Owned (root : Node) (sites : List Site) (s : Survey) : Prop :=
  s.memo.InTree root ∧ ∀ a ∈ s.acquisitions, ∀ o ∈ a.ownerStart,
    ∃ site ∈ sites, ∃ fn, root.IsFunctionAround fn site.span ∧ o = fn.start

namespace Survey

variable {root : Node} {sites : List Site} {valid : Nat → Prop}

/-- One site adds an accessor for a function around it. -/
lemma Owned.visit {s : Survey} (h : s.Owned root sites) (surveyor : Surveyor)
    (hroot : root.Nested valid) {site : Site} (hsite : site ∈ sites) (hc : site.cursor ∈ root.cursors) :
    (s.visit surveyor site).Owned root sites := by
  obtain ⟨howner, hmemo⟩ := surveyor.classify_inTree hroot hc h.1
  refine ⟨hmemo, forall_mem_foldl_addAcquisition h.2 ?_⟩
  intro a ha o ho
  rw [Options.ownerStart_of_mem_acquisition (mem_toList.mp ha)] at ho
  obtain ⟨fn, hfn, rfl⟩ := map_eq_some_iff.mp ho
  exact ⟨site, hsite, fn, howner fn hfn, rfl⟩

/-- **Accessors are acquired in functions around sites**, by induction on the sites. -/
theorem owned_foldl (surveyor : Surveyor) (hroot : root.Nested valid)
    (hsites : ∀ site ∈ sites, site.cursor ∈ root.cursors) :
    (sites.foldl (Survey.visit surveyor) {}).Owned root sites := by
  have hempty : ({} : Survey).Owned root sites := ⟨forall_mem_nil _, forall_mem_nil _⟩
  exact List.foldlRecOn sites _ hempty (motive := fun s => Survey.Owned root sites s)
    fun s h site hsite => h.visit surveyor hroot hsite (hsites site hsite)

end Survey

/-! ## Changes around an offset -/

/-- **The changes cover what the sites cover.** -/
theorem exists_change_coversInside_iff (e : Extractor) (scope : Scope) (sites : List Site) (a : Nat) :
    (∃ change ∈ (e.settle scope sites).changes, change.CoversInside a) ↔
      ∃ s ∈ sites, s.span.1 < a ∧ a < s.span.2 := by
  have hspans := span_survey ⟨e.text, e.options, scope⟩ sites {}
  rw [show ({} : Survey).edits = [] from rfl, map_nil, nil_append] at hspans
  simp only [Extractor.settle]
  set edits := (sites.foldl (Survey.visit ⟨e.text, e.options, scope⟩) {}).edits
  constructor
  · rintro ⟨change, hchange, hlo, hhi⟩
    obtain ⟨p, hp, rfl⟩ := mem_map.mp hchange
    have hmem : p.span ∈ sites.map Site.span := hspans ▸ mem_map_of_mem (outermost_subset edits hp)
    obtain ⟨s, hs, hspan⟩ := mem_map.mp hmem
    refine ⟨s, hs, ?_⟩
    rw [hspan]
    exact ⟨Int.ofNat_lt.mp hlo, Int.ofNat_lt.mp hhi⟩
  · rintro ⟨s, hs, hlo, hhi⟩
    have hmem : s.span ∈ edits.map PendingEdit.span := hspans ▸ mem_map_of_mem hs
    obtain ⟨p, hp, hspan⟩ := mem_map.mp hmem
    obtain ⟨k, hk, hwithin⟩ := exists_outermost_within hp
    rw [PendingEdit.within, Bool.and_eq_true_iff, decide_eq_true_iff, decide_eq_true_iff] at hwithin
    rw [← hspan] at hlo hhi
    refine ⟨_, mem_map_of_mem hk, Int.ofNat_lt.mpr ?_, Int.ofNat_lt.mpr ?_⟩
    · exact lt_of_le_of_lt hwithin.1 hlo
    · exact lt_of_lt_of_le hhi hwithin.2

/-- The beginning of a function that is not empty is inside of the span of a node exactly if the node is an
ancestor of the function and begins before it. -/
lemma Node.Nested.inside_iff {outer : List Node} (hroot : root.Nested valid)
    (hfn : ⟨fn, outer⟩ ∈ root.cursors) (hlt : fn.start < fn.stop) (hc : c ∈ root.cursors) :
    (c.node.start < fn.start ∧ fn.start < c.node.stop) ↔ c.node ∈ outer ∧ c.node.start < fn.start := by
  constructor
  · rintro ⟨hlo, hhi⟩
    refine ⟨?_, hlo⟩
    -- the function stands below the node, as it begins inside of it
    rcases hroot.eq_or_belowOrBehind hc hfn with rfl | (hbelow | hbehind) | (habove | hbehind)
    · exact absurd hlo (lt_irrefl _)
    · exact ((hroot.of_mem_walk hc).2.of_mem_below hbelow).2.mem mem_cons_self
    · exact absurd hbehind (by simpa using hhi)
    · have hwithin := ((hroot.of_mem_walk hfn).2.of_mem_below habove).1
      exact absurd hwithin.1 (by simpa using hlo)
    · simp only at hbehind
      omega
  · rintro ⟨hmem, hlo⟩
    have hwithin : fn.within c.node := hroot.within_of_mem_ancestors hfn hmem
    exact ⟨hlo, lt_of_lt_of_le hlt hwithin.2⟩

/-! ## Owners that move -/

/-- What a list of offsets becomes, looked up by offset. -/
lemma lookup_zip_map {α β : Type} [BEq α] [LawfulBEq α] (f : α → β) {l : List α} {a : α} (ha : a ∈ l) :
    (l.zip (l.map f)).lookup a = some (f a) := by
  induction l with
  | nil => cases ha
  | cons b rest ih =>
    rw [map_cons, zip_cons_cons, lookup_cons]
    by_cases hab : a = b
    · subst hab
      rw [beq_self_eq_true]
    · rw [beq_false_of_ne hab]
      exact ih ((mem_cons.mp ha).resolve_left hab)

/-- An accessor whose owner has moved, if all owners move in the same way. -/
lemma Acquisition.moved_eq {acquisitions : List Acquisition} {a : Acquisition} (ha : a ∈ acquisitions)
    (move : Int → Int) :
    a.moved ((ownerStarts acquisitions).zip ((ownerStarts acquisitions).map move)) =
      { a with ownerStart := a.ownerStart.map move } := by
  cases hstart : a.ownerStart with
  | none => simp [Acquisition.moved, hstart]
  | some o =>
    have hmem : o ∈ ownerStarts acquisitions := mem_filterMap.mpr ⟨a, ha, hstart⟩
    simp [Acquisition.moved, hstart, lookup_zip_map move hmem]

/-- Accessors that are needed in any case come behind those that are collected. -/
lemma subset_foldl_addAcquisition (acquisitions new : List Acquisition) :
    acquisitions ⊆ new.foldl addAcquisition acquisitions := by
  refine List.foldlRecOn new addAcquisition (List.Subset.refl _)
    (motive := fun l => acquisitions ⊆ l) fun l hl a _ => ?_
  rw [addAcquisition]
  split_ifs
  · exact hl
  · exact subset_append_of_subset_left _ hl

/-- **The functions that own accessors are followed, unless they stand in a literal that is rewritten.**
Of a script with a well-formed tree, changes are collected and made, and all owners move in the same way
before accessors are acquired. The owner of a collected accessor is a function of the tree around a site.
Its beginning is inside of a change exactly if the function stands in a literal that is a site and begins
before it; and if it is inside of no change, it moves to where the function begins in the new text. -/
theorem Workbench.finishScript_follows_owners (w : Workbench) {code dialect : Text} {place : ScriptPlace}
    {root : Node} {e : Extractor} {c : Collected} {l l' : Ledger} (he : w.extractor code = .ok e)
    (hroot : root.Nested (· ≤ code.length)) (h : Runs (e.collect place.moduleScope root) l c l') :
    ∃ sites out move, Runs (e.resolveAll e.options.callNames root.cursors) l sites l' ∧
      w.finishScript code dialect (c.with place) =
        ensureImports w.parser out (c.with place).imports
          ((c.with place).acquisitions.map fun a => { a with ownerStart := a.ownerStart.map move })
          dialect w.file ∧
      ∀ a ∈ c.acquisitions, a ∈ (c.with place).acquisitions ∧ ∀ o ∈ a.ownerStart,
        ∃ fn outer, ⟨fn, outer⟩ ∈ root.cursors ∧ fn.isFunction = true ∧ o = fn.start ∧
          (∃ s ∈ sites, s.cursor.node.within fn) ∧
          ((∃ change ∈ c.changes, change.CoversInside o) ↔
            ∃ s ∈ sites, s.cursor.node ∈ outer ∧ s.cursor.node.start < fn.start) ∧
          ((∀ change ∈ c.changes, ¬ change.CoversInside o) →
            ∃ m : Nat, move o = m ∧ Follows code c.changes out fn.start m) := by
  obtain ⟨rfl, -⟩ := w.extractor_eq_ok he
  obtain ⟨hparts, hpair⟩ := e.runs_collect_of_nested hroot h
  have hspans : ∀ change ∈ c.changes, change.IsAnchored := fun change hc => (hparts change hc).isAnchored
  have hvalid := validate_of_isPart hparts hpair
  obtain ⟨sites, hsites, rfl⟩ := Extractor.runs_collect h
  obtain ⟨hsub, hfound, -⟩ := e.runs_resolveAll hsites
  have hcursor : ∀ s ∈ sites, s.cursor ∈ root.cursors := fun s hs => hsub.subset (mem_map_of_mem hs)
  set splices := (sortChanges (e.settle place.moduleScope sites).changes).map Change.splice
  refine ⟨sites, patchFrom e.text 0 splices, moveFrom e.text splices, hsites, ?_, ?_⟩
  · -- all owners move in the same way
    rw [Workbench.finishScript]
    have happly := applyChanges_eq hspans hvalid
      (ownerStarts ((e.settle place.moduleScope sites).with place).acquisitions)
    simp only [Collected.with] at happly ⊢
    rw [happly]
    refine congrArg (fun acquisitions => ensureImports _ _ _ acquisitions _ _) (map_congr_left ?_)
    exact fun a ha => Acquisition.moved_eq ha _
  · intro a ha
    refine ⟨subset_foldl_addAcquisition _ _ ha, fun o ho => ?_⟩
    obtain ⟨s, hs, fn, ⟨hfn, ⟨outer, hmem⟩, hstart, hstop⟩, rfl⟩ :=
      (Survey.owned_foldl ⟨e.text, e.options, place.moduleScope⟩ hroot hcursor).2 a ha o ho
    have hlt : fn.start < fn.stop := by
      have hsite := (hfound s hs).lt (hroot.of_mem_walk (hcursor s hs)).2
      omega
    refine ⟨fn, outer, hmem, hfn, rfl, ⟨s, hs, hstart, hstop⟩, ?_, ?_⟩
    · rw [exists_change_coversInside_iff]
      exact exists_congr fun s' => and_congr_right fun hs' =>
        hroot.inside_iff hmem hlt (hcursor s' hs')
    · exact exists_follows hspans hvalid (hroot.of_mem_walk hmem).2.valid_start

/-- Two components: one in a substitution of a template literal that is one phrase, and one by itself. -/
def twoComponents : Text :=
  "const a = `___$\x7b() => <p>___b___</p>\x7d___`, B = () => <p>___c___</p>;"

/-- The tree of that script. -/
def twoComponentsTree : Node :=
  .mk { kind := "program", start := 0, stop := 68 } [
    .mk { kind := "template_string", start := 10, stop := 41 } [
      .mk { kind := "template_substitution", start := 14, stop := 37 } [
        .mk { kind := "arrow_function", start := 16, stop := 36 } [
          .mk { kind := "jsx_element", start := 22, stop := 36, field := some "body" } [
            .mk { kind := "jsx_text", start := 25, stop := 32 } []]]]],
    .mk { kind := "arrow_function", start := 47, stop := 67 } [
      .mk { kind := "jsx_element", start := 53, stop := 67, field := some "body" } [
        .mk { kind := "jsx_text", start := 56, stop := 63 } []]]]

/-- The component in the substitution begins inside of the change of the template, and nothing follows it;
the other one moves with its text. -/
theorem Workbench.finishScript_follows_owners_two :
    let w : Workbench := ⟨.ofSupplied [], "a.jsx", {}, []⟩
    ∃ e c l', w.extractor twoComponents = .ok e ∧ twoComponentsTree.Nested (· ≤ twoComponents.length) ∧
      Runs (e.collect .plain twoComponentsTree) {} c l' ∧
      c.changes.map Change.bounds = [(10, 41), (56, 63)] ∧ ownerStarts c.acquisitions = [16, 47] ∧
      ∃ (sites : List Site) (out : Text) (move : Int → Int),
        w.finishScript twoComponents "javascript" (c.with {}) =
          ensureImports w.parser out c.imports
            (c.acquisitions.map fun a => { a with ownerStart := a.ownerStart.map move }) "javascript"
            "a.jsx" ∧
        (∃ fn outer, ⟨fn, outer⟩ ∈ twoComponentsTree.cursors ∧ fn.start = 16 ∧
          ∃ s ∈ sites, s.cursor.node ∈ outer ∧ s.cursor.node.start < fn.start) ∧
        ∃ m : Nat, move 47 = m ∧ Follows twoComponents c.changes out 47 m := by
  intro w
  have hrun : ((w.extractor twoComponents).toOption.any fun e =>
      ((e.collect .plain twoComponentsTree).run.run {}).1.toOption.any fun c =>
        c.changes.map Change.bounds == [(10, 41), (56, 63)] && ownerStarts c.acquisitions == [16, 47]) =
        true := by
    decide +kernel
  obtain ⟨e, he, hrun⟩ := exists_ok_of_any hrun
  obtain ⟨c, hc, hrun⟩ := exists_ok_of_any hrun
  rw [Bool.and_eq_true_iff, beq_iff_eq, beq_iff_eq] at hrun
  obtain ⟨hbounds, howners⟩ := hrun
  have hroot : twoComponentsTree.Nested (· ≤ twoComponents.length) := by decide +kernel
  have hcollect : Runs (e.collect .plain twoComponentsTree) {} c _ := Prod.ext hc rfl
  obtain ⟨sites, out, move, -, hfinish, hall⟩ :=
    @finishScript_follows_owners w twoComponents "javascript" {} _ e c {} _ he hroot hcollect
  -- the owners, and which of them is inside of a change
  have hcovers : ∀ a : Int, (∃ change ∈ c.changes, change.CoversInside a) ↔
      ∃ b ∈ [((10 : Int), (41 : Int)), (56, 63)], b.1 < a ∧ a < b.2 := by
    intro a
    rw [← hbounds]
    simp [Change.CoversInside]
  have howner : ∀ o ∈ [(16 : Int), 47], ∃ a ∈ c.acquisitions, a.ownerStart = some o := by
    intro o ho
    rw [← howners] at ho
    exact mem_filterMap.mp ho
  obtain ⟨a, ha, hinside⟩ := howner 16 (by simp)
  obtain ⟨b, hb, houtside⟩ := howner 47 (by simp)
  obtain ⟨-, ha⟩ := hall a ha
  obtain ⟨-, hb⟩ := hall b hb
  obtain ⟨fn, outer, hmem, -, hstart, -, hiff, -⟩ := ha 16 hinside
  obtain ⟨fn', outer', -, -, hstart', -, -, hfollows⟩ := hb 47 houtside
  refine ⟨e, c, _, he, hroot, hcollect, hbounds, howners, sites, out, move, hfinish,
    ⟨fn, outer, hmem, by omega, hiff.mp ((hcovers 16).mpr (by decide))⟩, ?_⟩
  have hbegin : fn'.start = 47 := by omega
  rw [hbegin] at hfollows
  refine hfollows fun change hchange hcov => ?_
  exact absurd ((hcovers 47).mp ⟨change, hchange, hcov⟩) (by decide)

end Phrasebook
