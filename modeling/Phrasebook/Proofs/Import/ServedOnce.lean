import Mathlib.Data.List.Dedup
import Mathlib.Data.List.Perm.Basic
import Phrasebook.Proofs.Import.PlainCalls

/-!
# Each requirement is served once

The requirements that no import statement of a file meets are sorted by their modules, partly merged
into a statement that is there, and otherwise put together in new statements. Each text that is
inserted serves some requirements, which can be read off from it: the caller's own statement, the
specifiers of names, a default export or a namespace.

## Main results

* `SourceFile.settles_planModule`, `SourceFile.settles_verbatim` — what the parts of a plan serve.
* `SourceFile.planImports_serves_once` — no requirement is lost on the way, and none is served twice.
-/

namespace Phrasebook

open List

variable {r : ImportRequirement} {target : ImportStatement} {required : List ImportRequirement}

/-! ## What an insertion serves -/

/-- What is required of a module in one of the ways to import, without a statement of the caller. -/
structure ImportRequirement.IsOf (source : Text) (kind : ImportKind) (r : ImportRequirement) : Prop where
  source_eq : r.source = source
  kind_eq : r.kind = kind
  statement_eq : r.statement = none

/-- **Where names can be added to an import statement**: a place, and what is written before and after
the names. They come behind the last specifier, or behind the brace if no specifier is known, or in
braces of their own behind a default export. -/
inductive ImportStatement.TakesNames (s : ImportStatement) : Nat → Text → Text → Prop
  | behindSpecifier {last : Node} (hlast : s.lastSpecifier = some last) :
    TakesNames s last.stop ", " []
  | behindBrace {braces : Node} (hlast : s.lastSpecifier = none) (hbraces : s.braces = some braces) :
    TakesNames s (braces.start + 1) " " " "
  | behindDefault {clause : Node} (hbraces : s.braces = none) (hdefault : s.default.isSome)
    (hclause : s.clause = some clause) : TakesNames s clause.stop ", \x7b " " \x7d"

namespace SourceFile

variable (f : SourceFile)

/-- **The requirements that an inserted text serves.** -/
inductive Serves : Placement → List ImportRequirement → Prop
  /-- A statement of the caller, as it is. -/
  | verbatim {statement : Text} {served : List ImportRequirement}
    (hserved : ∀ r ∈ served, r.statement = some statement) : Serves (f.atTop statement false) served
  /-- Names that are merged into a statement for their module, one specifier for each. -/
  | merged {s : ImportStatement} {position : Nat} {before after : Text} {named : List ImportRequirement}
    (hs : s ∈ f.imports) (htype : s.typeOnly = false) (hnamed : ∀ r ∈ named, r.IsOf s.source .named)
    (hplace : s.TakesNames position before after) :
    Serves ⟨position, before ++ specifiers named ++ after, false⟩ named
  /-- A default export that is added to the clause of a statement for its module. -/
  | default {s : ImportStatement} {clause : Node} {r : ImportRequirement} (hs : s ∈ f.imports)
    (htype : s.typeOnly = false) (hr : r.IsOf s.source .default) (hnone : s.default = none)
    (hclause : s.clause = some clause) : Serves ⟨clause.start, r.localName ++ ", ", false⟩ [r]
  /-- A new statement for a default export and names. -/
  | statement {source : Text} {default : Option ImportRequirement} {named : List ImportRequirement}
    (hdefault : ∀ r ∈ default, r.IsOf source .default) (hnamed : ∀ r ∈ named, r.IsOf source .named) :
    Serves (f.newImport source (.bindings (default.map ImportRequirement.localName) named))
      (default.toList ++ named)
  /-- A new statement for a whole module. -/
  | star {source : Text} {r : ImportRequirement} (hr : r.IsOf source .star) :
    Serves (f.newImport source (.star r.localName)) [r]

/-- **Insertions that serve requirements, each of them once**: the requirements can be divided among the
insertions, and every insertion serves its share, which is not empty. -/
def Settles (placements : List Placement) (served : List ImportRequirement) : Prop :=
  ∃ shares : List (List ImportRequirement),
    List.Forall₂ f.Serves placements shares ∧ (∀ share ∈ shares, share ≠ []) ∧ shares.flatten.Perm served

namespace Settles

variable {f} {placements placements' : List Placement} {served served' : List ImportRequirement}

lemma nil : f.Settles [] [] := ⟨[], .nil, by simp, .refl _⟩

/-- One text serves its requirements. -/
lemma single {p : Placement} (h : f.Serves p served) (hne : served ≠ []) : f.Settles [p] served :=
  ⟨[served], .cons h .nil, by simpa using hne, by simp⟩

/-- Two plans serve the requirements of both. -/
lemma append (h : f.Settles placements served) (h' : f.Settles placements' served') :
    f.Settles (placements ++ placements') (served ++ served') := by
  obtain ⟨shares, hserves, hne, hperm⟩ := h
  obtain ⟨shares', hserves', hne', hperm'⟩ := h'
  refine ⟨shares ++ shares', rel_append hserves hserves', ?_, ?_⟩
  · intro share hshare
    exact (mem_append.mp hshare).elim (hne share) (hne' share)
  · rw [flatten_append]
    exact hperm.append hperm'

lemma of_perm (h : f.Settles placements served) (hperm : served.Perm served') :
    f.Settles placements served' := by
  obtain ⟨shares, hserves, hne, hshares⟩ := h
  exact ⟨shares, hserves, hne, hshares.trans hperm⟩

/-- Insertions for several things, one after the other. -/
lemma flatMap {α : Type} {xs : List α} {place : α → List Placement}
    {serve : α → List ImportRequirement} (h : ∀ a ∈ xs, f.Settles (place a) (serve a)) :
    f.Settles (xs.flatMap place) (xs.flatMap serve) := by
  induction xs with
  | nil => exact nil
  | cons a xs ih =>
    exact (h a mem_cons_self).append (ih fun b hb => h b (mem_cons_of_mem a hb))

end Settles

/-! ## What is wanted of a module -/

/-- **What is wanted of a module**: each requirement once, in one of the three ways, and at most one
default export. -/
structure Wanted (source : Text) (wanted : List ImportRequirement) : Prop where
  nodup : wanted.Nodup
  /-- It is required of the module, in one of the three ways. -/
  isOf : ∀ r ∈ wanted, r.IsOf source .named ∨ r.IsOf source .default ∨ r.IsOf source .star
  default_unique : ∀ r ∈ wanted, ∀ r' ∈ wanted, r.kind = .default → r'.kind = .default → r = r'

namespace Wanted

variable {source : Text} {wanted rest : List ImportRequirement}

lemma sublist (h : Wanted source wanted) (hrest : rest.Sublist wanted) : Wanted source rest where
  nodup := h.nodup.sublist hrest
  isOf r hr := h.isOf r (hrest.subset hr)
  default_unique r hr r' hr' := h.default_unique r (hrest.subset hr) r' (hrest.subset hr')

lemma isOf_of_kind (h : Wanted source wanted) (hr : r ∈ wanted) {kind : ImportKind} (hkind : r.kind = kind) :
    r.IsOf source kind := by
  rcases h.isOf r hr with hof | hof | hof <;> exact ⟨hof.source_eq, hkind, hof.statement_eq⟩

/-- The default export is all that is wanted by default. -/
lemma filter_default (h : Wanted source wanted) :
    (wanted.filter fun r => r.kind == .default) =
      (wanted.find? fun r => r.kind == .default).toList := by
  have hnodup := h.nodup.filter fun r => r.kind == .default
  have hsame : ∀ r ∈ wanted.filter (fun r => r.kind == .default),
      ∀ r' ∈ wanted.filter (fun r => r.kind == .default), r = r' := by
    intro r hr r' hr'
    obtain ⟨hr, hkind⟩ := mem_filter.mp hr
    obtain ⟨hr', hkind'⟩ := mem_filter.mp hr'
    exact h.default_unique r hr r' hr' (by simpa using hkind) (by simpa using hkind')
  rw [← head?_filter]
  cases hfilter : wanted.filter fun r => r.kind == .default with
  | nil => rfl
  | cons r others =>
    cases others with
    | nil => rfl
    | cons r' others =>
      rw [hfilter] at hnodup hsame
      obtain rfl := hsame r mem_cons_self r' (mem_cons_of_mem r mem_cons_self)
      simp at hnodup

/-- Names apart from the rest. -/
lemma perm_named (wanted : List ImportRequirement) :
    ((wanted.filter fun r => r.kind == .named) ++ wanted.filter fun r => r.kind != .named).Perm wanted :=
  filter_append_perm (fun r => r.kind == .named) wanted

/-- What is wanted consists of the default export, names and namespaces. -/
lemma perm (h : Wanted source wanted) :
    ((wanted.find? fun r => r.kind == .default).toList ++ (wanted.filter fun r => r.kind == .named) ++
      wanted.filter fun r => r.kind == .star).Perm wanted := by
  have hstar : (wanted.filter fun r => r.kind == .star) =
      (wanted.filter fun r => r.kind != .named).filter fun r => r.kind != .default := by
    rw [filter_filter]
    refine filter_congr fun r hr => ?_
    rcases h.isOf r hr with hof | hof | hof <;> simp [hof.kind_eq]
  have hdefault : (wanted.filter fun r => r.kind == .default) =
      (wanted.filter fun r => r.kind != .named).filter fun r => r.kind == .default := by
    rw [filter_filter]
    refine filter_congr fun r _ => ?_
    cases r.kind <;> simp
  have hrest := filter_append_perm (fun r : ImportRequirement => r.kind == .default)
    (wanted.filter fun r => r.kind != .named)
  rw [← hdefault] at hrest
  rw [← h.filter_default, hstar]
  refine List.Perm.trans ?_ (perm_named wanted)
  refine List.Perm.trans (perm_append_comm.append_right _) ?_
  rw [append_assoc]
  exact hrest.append_left _

end Wanted

variable {f} {source : Text} {wanted : List ImportRequirement}

/-- **New statements** serve what is wanted: one for the default export and the names, and one for each
namespace. -/
theorem settles_importStatements (h : Wanted source wanted) :
    f.Settles ((importStatements f.style source wanted).map fun s => f.atTop s false) wanted := by
  refine Settles.of_perm ?_ h.perm
  rw [importStatements, map_append]
  refine Settles.append ?_ ?_
  · have hserves : f.Serves (f.newImport source (.bindings
        ((wanted.find? fun r => r.kind == .default).map ImportRequirement.localName)
          (wanted.filter fun r => r.kind == .named)))
        ((wanted.find? fun r => r.kind == .default).toList ++
          wanted.filter fun r => r.kind == .named) := by
      refine .statement (fun r hr => ?_) fun r hr => ?_
      · exact h.isOf_of_kind (mem_of_find?_eq_some hr) (by simpa using find?_some hr)
      · obtain ⟨hr, hkind⟩ := mem_filter.mp hr
        exact h.isOf_of_kind hr (by simpa using hkind)
    cases hdefault : wanted.find? fun r => r.kind == .default with
    | some r =>
      rw [hdefault] at hserves
      exact .single hserves (by simp)
    | none =>
      rw [hdefault] at hserves
      cases hnamed : wanted.filter fun r => r.kind == .named with
      | nil => exact .nil
      | cons r named =>
        rw [hnamed] at hserves
        exact .single hserves (by simp)
  · have hstars : ∀ r ∈ wanted.filter (fun r => r.kind == .star),
        f.Settles [f.newImport source (.star r.localName)] [r] := by
      intro r hr
      obtain ⟨hr, hkind⟩ := mem_filter.mp hr
      exact .single (.star (h.isOf_of_kind hr (by simpa using hkind))) (by simp)
    have hall := Settles.flatMap hstars
    rw [flatMap_singleton'] at hall
    rw [map_map, map_eq_flatMap]
    exact hall

/-- Names that are added to a statement are served by one insertion, unless there is no place for them. -/
lemma mergeNamed_serves (h : f.mergeTarget? source = some target) {named : List ImportRequirement}
    (hnamed : ∀ r ∈ named, r.IsOf source .named) :
    mergeNamed target named = [] ∨ f.Settles (mergeNamed target named) named := by
  obtain ⟨hmem, rfl, htype⟩ := mergeTarget?_spec h
  have hserves : ∀ {position : Nat} {before after : Text}, target.TakesNames position before after →
      f.Serves ⟨position, before ++ specifiers named ++ after, false⟩ named :=
    fun hplace => .merged hmem htype hnamed hplace
  unfold mergeNamed
  split
  · exact .inl rfl
  · rename_i hne hlast
    have hplaced := hserves (.behindSpecifier hlast)
    rw [append_nil] at hplaced
    exact .inr (.single hplaced hne)
  · rename_i hne hlast hbraces
    exact .inr (.single (hserves (.behindBrace hlast hbraces)) hne)
  · rename_i hne _ hbraces hdefault hclause
    have hplaced := hserves (.behindDefault hbraces (by simp [hdefault]) hclause)
    exact .inr (.single hplaced hne)
  · exact .inl rfl

/-- A default export that is added to a statement is served by one insertion, unless there is no place
for it. -/
lemma mergeDefault_serves (h : f.mergeTarget? source = some target) (hr : r.IsOf source .default) :
    mergeDefault target (some r) = [] ∨ f.Settles (mergeDefault target (some r)) [r] := by
  obtain ⟨hmem, rfl, htype⟩ := mergeTarget?_spec h
  unfold mergeDefault
  split
  · rename_i heq hnone hclause
    obtain rfl := Option.some.inj heq
    exact .inr (.single (.default hmem htype hr hnone hclause) (by simp))
  · exact .inl rfl

/-- What is left of what is wanted, when a part of it has been served. -/
structure Leaves (f : SourceFile) (placements : List Placement) (wanted rest : List ImportRequirement) :
    Prop where
  settles : ∃ served, f.Settles placements served ∧ (served ++ rest).Perm wanted
  sublist : rest.Sublist wanted

namespace Leaves

variable {placements placements' : List Placement} {rest rest' : List ImportRequirement}

lemma refl (f : SourceFile) (wanted : List ImportRequirement) : f.Leaves [] wanted wanted :=
  ⟨⟨[], .nil, .refl _⟩, .refl _⟩

lemma trans (h : f.Leaves placements wanted rest) (h' : f.Leaves placements' rest rest') :
    f.Leaves (placements ++ placements') wanted rest' := by
  obtain ⟨⟨served, hserved, hperm⟩, hrest⟩ := h
  obtain ⟨⟨served', hserved', hperm'⟩, hrest'⟩ := h'
  refine ⟨⟨served ++ served', hserved.append hserved', ?_⟩, hrest'.trans hrest⟩
  rw [append_assoc]
  exact (hperm'.append_left served).trans hperm

/-- All that is left is served. -/
lemma settles_append (h : f.Leaves placements wanted rest) (h' : f.Settles placements' rest) :
    f.Settles (placements ++ placements') wanted := by
  obtain ⟨served, hserved, hperm⟩ := h.settles
  exact (hserved.append h').of_perm hperm

end Leaves

/-- Merging names: all of them are served, or all of them are left. -/
lemma leaves_mergeNamed (h : f.mergeTarget? source = some target) (hwanted : Wanted source wanted) :
    f.Leaves (mergeNamed target (wanted.filter fun r => r.kind == .named)) wanted
      (if (mergeNamed target (wanted.filter fun r => r.kind == .named)).isEmpty then wanted
        else wanted.filter fun r => r.kind != .named) := by
  have hnamed : ∀ r ∈ wanted.filter (fun r => r.kind == .named), r.IsOf source .named := by
    intro r hr
    obtain ⟨hr, hkind⟩ := mem_filter.mp hr
    exact hwanted.isOf_of_kind hr (by simpa using hkind)
  split_ifs with hempty
  · rw [List.isEmpty_iff.mp hempty]
    exact .refl f wanted
  · rcases mergeNamed_serves h hnamed with hnil | hsettles
    · exact absurd (List.isEmpty_iff.mpr hnil) hempty
    · exact ⟨⟨_, hsettles, Wanted.perm_named wanted⟩, filter_sublist⟩

/-- Merging a default export: it is served, or it is left. -/
lemma leaves_mergeDefault (h : f.mergeTarget? source = some target) (hwanted : Wanted source wanted) :
    f.Leaves (mergeDefault target (wanted.find? fun r => r.kind == .default)) wanted
      (if (mergeDefault target (wanted.find? fun r => r.kind == .default)).isEmpty then wanted
        else wanted.eraseP fun r => r.kind == .default) := by
  split_ifs with hempty
  · rw [List.isEmpty_iff.mp hempty]
    exact .refl f wanted
  · cases hfound : wanted.find? fun r => r.kind == .default with
    | none =>
      rw [hfound] at hempty
      exact absurd rfl hempty
    | some r =>
      rw [hfound] at hempty
      obtain ⟨hkind, before, after, rfl, hbefore⟩ := find?_eq_some_iff_append.mp hfound
      have hr : r.IsOf source .default := hwanted.isOf_of_kind (by simp) (by simpa using hkind)
      rcases mergeDefault_serves h hr with hnil | hsettles
      · exact absurd (List.isEmpty_iff.mpr hnil) hempty
      · refine ⟨⟨[r], hsettles, ?_⟩, eraseP_sublist⟩
        rw [eraseP_append_right _ (by simpa using hbefore), eraseP_cons, hkind, cond_true,
          singleton_append]
        exact perm_middle.symm

/-- **All that is wanted of a module is served once**: what can be merged into a statement for the module
is merged, and the rest comes in new statements. -/
theorem settles_planModule (hwanted : Wanted source wanted) :
    f.Settles (f.planModule source wanted) wanted := by
  rw [planModule]
  cases htarget : f.mergeTarget? source with
  | none => exact settles_importStatements hwanted
  | some target =>
    have hnamed := leaves_mergeNamed htarget hwanted
    have hdefault := leaves_mergeDefault htarget (hwanted.sublist hnamed.sublist)
    have hmerged := hnamed.trans hdefault
    exact hmerged.settles_append (settles_importStatements (hwanted.sublist hmerged.sublist))

end SourceFile

/-! ## The requirements by their modules -/

/-- No statement is written twice. -/
lemma nodup_foldl_addOnce (texts : List Text) {known : List Text} (h : known.Nodup) :
    (texts.foldl addOnce known).Nodup := by
  refine List.foldlRecOn texts addOnce h (motive := List.Nodup) fun known h first _ => ?_
  rw [addOnce]
  split_ifs with hmem
  · exact h
  · exact concat_eq_append ▸ List.Nodup.concat (by simpa using hmem) h

/-- **A table of requirements without repetitions**: each module stands in it once, and each requirement
stands once with its module. -/
structure Unrepeated (missing : List (Text × List ImportRequirement)) : Prop where
  modules : (missing.map Prod.fst).Nodup
  wanted : ∀ entry ∈ missing, entry.2.Nodup

namespace Unrepeated

variable {missing : List (Text × List ImportRequirement)}

lemma add (h : Unrepeated missing) (r : ImportRequirement) : Unrepeated (addMissing missing r) where
  modules := nodup_put h.modules _ _
  wanted := by
    intro entry hentry
    rcases mem_put hentry with rfl | hold
    · have hbucket : ((missing.lookup r.source).getD []).Nodup := by
        cases hfound : missing.lookup r.source with
        | none => exact nodup_nil
        | some bucket => exact h.wanted _ (mem_of_lookup hfound)
      simp only
      split_ifs with hmem
      · exact hbucket
      · exact concat_eq_append ▸ List.Nodup.concat (by simpa using hmem) hbucket
    · exact h.wanted entry hold

lemma foldl (h : Unrepeated missing) (more : List ImportRequirement) :
    Unrepeated (more.foldl addMissing missing) := by
  induction more generalizing missing with
  | nil => exact h
  | cons r more ih => exact ih (h.add r)

end Unrepeated

/-- No requirement is grouped twice. -/
lemma unrepeated_missing (required : List ImportRequirement) :
    Unrepeated (required.foldl addMissing []) :=
  Unrepeated.foldl ⟨by simp, by simp⟩ required

/-- What is in the table, all modules together: each requirement once. -/
lemma nodup_flatMap_missing (required : List ImportRequirement) :
    ((required.foldl addMissing []).flatMap Prod.snd).Nodup ∧
      ∀ r, r ∈ (required.foldl addMissing []).flatMap Prod.snd ↔ r ∈ required := by
  have hgrouped := grouped_missing required
  obtain ⟨hmodules, hwanted⟩ := unrepeated_missing required
  constructor
  · refine nodup_flatMap.mpr ⟨hwanted, (pairwise_map.mp hmodules).imp_of_mem ?_⟩
    intro entry entry' hentry hentry' hne r hr hr'
    exact hne ((hgrouped.sound entry hentry r hr).2.symm.trans (hgrouped.sound entry' hentry' r hr').2)
  · intro r
    rw [mem_flatMap]
    constructor
    · rintro ⟨entry, hentry, hr⟩
      exact (hgrouped.sound entry hentry r hr).1
    · intro hr
      obtain ⟨wanted, hlookup, hmem⟩ := hgrouped.complete r hr
      exact ⟨_, mem_of_lookup hlookup, hmem⟩

/-- A requirement that is in the table already adds nothing. -/
lemma addMissing_of_mem {missing : List (Text × List ImportRequirement)}
    (h : Grouped missing required) (hr : r ∈ required) : addMissing missing r = missing := by
  obtain ⟨wanted, hlookup, hmem⟩ := h.complete r hr
  have hcontains : wanted.contains r := by simpa using hmem
  simp only [addMissing, hlookup, Option.getD_some, hcontains, if_true]
  exact put_of_lookup hlookup

namespace SourceFile

variable {f : SourceFile}

/-! ## All requirements -/

/-- The requirements that come with a statement, each once, by their statements. -/
def sharers (required : List ImportRequirement) (statement : Text) : List ImportRequirement :=
  required.dedup.filter fun r => r.statement == some statement

lemma mem_sharers {statement : Text} :
    r ∈ sharers required statement ↔ r ∈ required ∧ r.statement = some statement := by
  simp [sharers]

/-- **The caller's own statements** are inserted once each, and serve all requirements that come with
them. -/
theorem settles_verbatim (f : SourceFile) (required : List ImportRequirement) :
    let statements := (required.filterMap ImportRequirement.statement).foldl addOnce []
    f.Settles (statements.map fun s => f.atTop s false) (statements.flatMap (sharers required)) ∧
      (statements.flatMap (sharers required)).Nodup ∧
      ∀ r, r ∈ statements.flatMap (sharers required) ↔ r ∈ required ∧ r.statement.isSome := by
  intro statements
  have hnodup : statements.Nodup := nodup_foldl_addOnce _ nodup_nil
  have hstatement : ∀ t, t ∈ statements ↔ ∃ r ∈ required, r.statement = some t := by
    simp [statements, mem_foldl_addOnce]
  refine ⟨?_, ?_, fun r => ?_⟩
  · rw [map_eq_flatMap]
    refine Settles.flatMap fun t ht => .single (.verbatim fun r hr => (mem_sharers.mp hr).2) ?_
    obtain ⟨r, hr, hrt⟩ := (hstatement t).mp ht
    exact ne_nil_of_mem (mem_sharers.mpr ⟨hr, hrt⟩)
  · refine nodup_flatMap.mpr ⟨fun t _ => (nodup_dedup required).filter _, hnodup.imp ?_⟩
    intro t t' hne r hr hr'
    have heq := (mem_sharers.mp hr).2.symm.trans (mem_sharers.mp hr').2
    exact hne (Option.some.inj heq)
  · rw [mem_flatMap]
    constructor
    · rintro ⟨t, -, hr⟩
      obtain ⟨hr, hrt⟩ := mem_sharers.mp hr
      exact ⟨hr, by simp [hrt]⟩
    · rintro ⟨hr, hsome⟩
      obtain ⟨t, hrt⟩ := Option.isSome_iff_exists.mp hsome
      exact ⟨t, (hstatement t).mpr ⟨r, hr, hrt⟩, mem_sharers.mpr ⟨hr, hrt⟩⟩

/-- The requirements that are not met, some before others. -/
lemma unmet_append (f : SourceFile) (before after : List ImportRequirement) :
    f.unmet (before ++ after) = f.unmet before ++ f.unmet after := filter_append ..

/-- **A repeated requirement adds nothing.** -/
theorem planImports_append_repeated (f : SourceFile) {before after : List ImportRequirement} (hr : r ∈ before) :
    f.planImports (before ++ r :: after) = f.planImports (before ++ after) := by
  have hsplit : before ++ r :: after = before ++ [r] ++ after := by simp
  cases hmet : hasImport f.imports r with
  | true =>
    have hnone : f.unmet [r] = [] := by simp [unmet, hmet]
    simp only [planImports, hsplit, unmet_append, hnone, append_nil]
  | false =>
    have hone : f.unmet [r] = [r] := by simp [unmet, hmet]
    have hunmet : r ∈ f.unmet before := mem_filter.mpr ⟨hr, by simp [hmet]⟩
    simp only [planImports, hsplit, unmet_append, hone, filterMap_append, filter_append,
      foldl_append]
    cases hstatement : r.statement with
    | some t =>
      have hknown : t ∈ ((f.unmet before).filterMap ImportRequirement.statement).foldl addOnce [] :=
        mem_foldl_addOnce.mpr (.inr (mem_filterMap.mpr ⟨r, hunmet, hstatement⟩))
      simp [hstatement, addOnce, hknown]
    | none =>
      have hmem : r ∈ (f.unmet before).filter fun r => r.statement.isNone :=
        mem_filter.mpr ⟨hunmet, by simp [hstatement]⟩
      simp [hstatement, addMissing_of_mem (grouped_missing _) hmem]

/-- **Each requirement that is not met is served once**, and nothing is inserted for one that is met. The
requirements that no import statement of the file meets can be divided among the insertions, each of them
in one share and once in it, and every insertion serves its share: with the caller's own statement, with
specifiers or a default export in a statement for the module, or with a new statement. A requirement that
is repeated adds nothing. -/
theorem planImports_serves_once (f : SourceFile) {required : List ImportRequirement}
    (hkind : ∀ r ∈ required, r.statement = none →
      r.kind = .named ∨ r.kind = .default ∨ r.kind = .star)
    (hdefault : ∀ r ∈ required, ∀ r' ∈ required, r.kind = .default → r'.kind = .default →
      r.source = r'.source → r = r') :
    (∃ shares : List (List ImportRequirement),
      List.Forall₂ f.Serves (f.planImports required) shares ∧ (∀ share ∈ shares, share ≠ []) ∧
      shares.flatten.Nodup ∧
      ∀ r, r ∈ shares.flatten ↔ r ∈ required ∧ hasImport f.imports r = false) ∧
    ∀ before r after, required = before ++ r :: after → r ∈ before →
      f.planImports required = f.planImports (before ++ after) := by
  refine ⟨?_, fun before r after heq hr => heq ▸ f.planImports_append_repeated hr⟩
  have hunmet : ∀ r, r ∈ f.unmet required ↔ r ∈ required ∧ hasImport f.imports r = false := by
    simp [unmet]
  obtain ⟨hverbatim, hnodup, hmem⟩ := f.settles_verbatim (f.unmet required)
  obtain ⟨hnodup', hmem'⟩ :=
    nodup_flatMap_missing ((f.unmet required).filter fun r => r.statement.isNone)
  have hmodules : ∀ entry ∈ ((f.unmet required).filter fun r => r.statement.isNone).foldl addMissing [],
      f.Settles (f.planModule entry.1 entry.2) entry.2 := by
    intro entry hentry
    have hsound : ∀ r ∈ entry.2, r ∈ required ∧ r.statement = none ∧ r.source = entry.1 := by
      intro r hr
      obtain ⟨hmem, hsource⟩ := (grouped_missing _).sound entry hentry r hr
      obtain ⟨hmem, hnone⟩ := mem_filter.mp hmem
      exact ⟨((hunmet r).mp hmem).1, by simpa using hnone, hsource⟩
    refine settles_planModule ⟨(unrepeated_missing _).wanted entry hentry, fun r hr => ?_, ?_⟩
    · obtain ⟨hmem, hnone, hsource⟩ := hsound r hr
      exact (hkind r hmem hnone).imp (⟨hsource, ·, hnone⟩) (Or.imp (⟨hsource, ·, hnone⟩)
        (⟨hsource, ·, hnone⟩))
    · intro r hr r' hr' hr_default hr'_default
      obtain ⟨hmem, -, hsource⟩ := hsound r hr
      obtain ⟨hmem', -, hsource'⟩ := hsound r' hr'
      exact hdefault r hmem r' hmem' hr_default hr'_default (hsource.trans hsource'.symm)
  obtain ⟨shares, hserves, hne, hperm⟩ := hverbatim.append (Settles.flatMap hmodules)
  refine ⟨shares, hserves, hne, hperm.nodup_iff.mpr ?_, fun r => ?_⟩
  · rw [nodup_append]
    refine ⟨hnodup, hnodup', ?_⟩
    -- a requirement comes with a statement or without one
    rintro r hr r' hr' rfl
    have hsome := ((hmem r).mp hr).2
    have hnone := (mem_filter.mp ((hmem' r).mp hr')).2
    rw [Option.isNone_iff_eq_none.mp hnone] at hsome
    cases hsome
  · rw [hperm.mem_iff, mem_append, hmem, hmem', mem_filter, ← and_or_left, hunmet]
    cases r.statement <;> simp

/-- A name that is there, one that is required twice and merged, a default export, a namespace of another
module, and a statement of the caller that two requirements share. -/
theorem planImports_serves_once_mixed :
    let f := SourceFile.ofTree aliasedImport aliasedImportTree
    let own : Text := "import say, \x7b tell \x7d from 'c';"
    let required : List ImportRequirement :=
      [⟨"i18next", "t", .named, none, none⟩, ⟨"i18next", "exists", .named, some "has", none⟩,
        ⟨"i18next", "i18n", .default, none, none⟩, ⟨"i18next", "exists", .named, some "has", none⟩,
        ⟨"b", "all", .star, none, none⟩, ⟨"c", "say", .default, none, some own⟩,
        ⟨"c", "tell", .named, none, some own⟩]
    f.planImports required =
        [⟨41, "\n" ++ own, false⟩, ⟨23, ", exists as has", false⟩, ⟨7, "i18n, ", false⟩,
          ⟨41, "\nimport * as all from \"b\";", false⟩] ∧
      ∃ shares : List (List ImportRequirement),
        List.Forall₂ f.Serves (f.planImports required) shares ∧ (∀ share ∈ shares, share ≠ []) ∧
        shares.flatten.Nodup ∧
        ∀ r, r ∈ shares.flatten ↔ r ∈ required ∧ hasImport f.imports r = false := by
  intro f own required
  have hplan : f.planImports required =
      [⟨41, "\n" ++ own, false⟩, ⟨23, ", exists as has", false⟩, ⟨7, "i18n, ", false⟩,
        ⟨41, "\nimport * as all from \"b\";", false⟩] := by decide +kernel
  exact ⟨hplan, (planImports_serves_once f (by decide +kernel) (by decide +kernel)).1⟩

end SourceFile

end Phrasebook
