import Phrasebook.Proofs.Accessor.Encodable
import Phrasebook.Proofs.Edit.Encodable
import Phrasebook.Proofs.Import.Acquisition

/-!
# Imports that can be written out

What is brought into scope is written with the texts of requirements, and with names and white space of
the file. A file into which something is brought is parsed for it, and so could be written out before.

## Main results

* `isEncodable_of_parse` — a text that is parsed can be written out.
* `isEncodable_ensureImports` — so can a text into which something is brought.
-/

namespace Phrasebook

open List Option Text

variable {required wanted : List ImportRequirement} {t dialect file source statement : Text}
  {acquisitions : List Acquisition} {parser : Parser} {root : Node} {s : ImportStatement}

/-- **A text that has been parsed** can be written out. -/
theorem isEncodable_of_parse (h : parse parser t dialect file = .ok root) : t.isEncodable := by
  rw [parse] at h
  split at h
  · cases h
  · cases h
  · rename_i hnone _
    exact firstSurrogates?_eq_none_iff.mp hnone

/-! ## Imports of a file -/

section Statements

variable {t : Text} (ht : t.isEncodable = true)

include ht

lemma Node.isEncodable_text (n : Node) : (n.text t).isEncodable :=
  isEncodable_slice ht _ _

/-- The names under which imports are known, with one more. -/
lemma ImportStatement.isEncodable_addSpecifier (hs : ∀ x ∈ s.named, x.2.isEncodable) (specifier : Node) :
    ∀ x ∈ (s.addSpecifier t specifier).named, x.2.isEncodable := by
  rw [addSpecifier]
  split_ifs
  · exact hs
  · split
    · exact hs
    · rename_i name _
      intro x hx
      rcases mem_put hx with rfl | hx
      · cases specifier.child? "alias" with
        | none => exact isEncodable_trimWhile (Node.isEncodable_text ht name) _
        | some newName => exact Node.isEncodable_text ht newName
      · exact hs x hx

/-- The names under which imports are known, with those of a part of the clause. -/
lemma ImportStatement.isEncodable_addPart (hs : ∀ x ∈ s.named, x.2.isEncodable) (part : Node) :
    ∀ x ∈ (s.addPart t part).named, x.2.isEncodable := by
  unfold addPart
  split
  · exact hs
  · split <;> exact hs
  · exact List.foldlRecOn part.namedChildren _ hs
      (motive := fun s : ImportStatement => ∀ x ∈ s.named, x.2.isEncodable)
      fun _ hs specifier _ => isEncodable_addSpecifier ht hs specifier
  · exact hs

/-- The names under which imports of a file are known. -/
lemma isEncodable_of_mem_scanImports :
    ∀ s ∈ scanImports t root, ∀ x ∈ s.named, x.2.isEncodable := by
  intro s hs
  obtain ⟨n, -, hn⟩ := mem_filterMap.mp hs
  rw [ImportStatement.ofNode?] at hn
  split_ifs at hn
  obtain ⟨source, -, rfl⟩ := map_eq_some_iff.mp hn
  exact List.foldlRecOn _ _ (forall_mem_nil _)
    (motive := fun s : ImportStatement => ∀ x ∈ s.named, x.2.isEncodable)
    fun _ hs part _ => ImportStatement.isEncodable_addPart ht hs part

end Statements

/-! ## Insertions -/

lemma ImportRequirement.IsEncodable.localName {r : ImportRequirement} (h : r.IsEncodable) :
    r.localName.isEncodable :=
  isEncodable_filled?_getD h.newName h.name

lemma isEncodable_specifiers (h : ∀ r ∈ required, r.IsEncodable) : (specifiers required).isEncodable := by
  refine isEncodable_join (isEncodable_ofString _) fun part hpart => ?_
  obtain ⟨r, hr, rfl⟩ := mem_map.mp hpart
  rw [ImportRequirement.specifier]
  split
  · rename_i newName hnew
    have hname := (h r hr).newName newName (mem_of_mem_filled? hnew)
    split_ifs <;> simp [(h r hr).name, hname]
  · exact (h r hr).name

lemma isEncodable_inBraces (h : t.isEncodable) : (inBraces t).isEncodable := by
  simp [inBraces, h]

/-- The statements that import what is required of a module. -/
lemma isEncodable_of_mem_importStatements {style : ImportStyle} (hquote : style.quote.isEncodable)
    (hsemicolon : style.semicolon.isEncodable) (h : ∀ r ∈ required, r.IsEncodable ∧ r.source = source) :
    ∀ s ∈ importStatements style source required, s.isEncodable := by
  by_cases hnil : required = []
  · subst hnil
    exact forall_mem_nil _
  obtain ⟨first, hfirst⟩ := exists_mem_of_ne_nil required hnil
  have hsource : source.isEncodable := (h first hfirst).2 ▸ (h first hfirst).1.source
  have hending : (" from " ++ style.quote ++ source ++ style.quote ++ style.semicolon :
      Text).isEncodable := by
    simp [hquote, hsource, hsemicolon]
  have hnamed := isEncodable_specifiers (fun r hr => (h r (mem_of_mem_filter hr)).1 :
    ∀ r ∈ required.filter fun r => r.kind == .named, r.IsEncodable)
  have hdefault : ∀ part ∈ ((required.find? fun r => r.kind == .default).map
      ImportRequirement.localName).toList, part.isEncodable := by
    intro part hpart
    obtain ⟨r, hr, rfl⟩ := map_eq_some_iff.mp (mem_toList.mp hpart)
    exact (h r (mem_of_find?_eq_some hr)).1.localName
  have hbraces : ∀ part ∈ (if (required.filter fun r => r.kind == .named).isEmpty then []
      else [inBraces (specifiers (required.filter fun r => r.kind == .named))]),
      part.isEncodable := by
    intro part hpart
    obtain rfl := mem_singleton.mp (mem_ite_nil_left.mp hpart).2
    exact isEncodable_inBraces hnamed
  have hbindings := isEncodable_join (isEncodable_ofString ", ")
    (forall_mem_append.mpr ⟨hdefault, hbraces⟩)
  rw [importStatements]
  refine forall_mem_append.mpr ⟨fun s hs => ?_, fun s hs => ?_⟩
  · obtain rfl := mem_singleton.mp (mem_ite_nil_left.mp hs).2
    rw [isEncodable_append, isEncodable_append, hending, isEncodable_ofString, hbindings]
    rfl
  · obtain ⟨r, hr, rfl⟩ := mem_map.mp hs
    rw [isEncodable_append, isEncodable_append, hending, isEncodable_ofString,
      (h r (mem_of_mem_filter hr)).1.localName]
    rfl

namespace SourceFile

variable (f : SourceFile)

lemma isEncodable_atTop (h : statement.isEncodable) (behindImports : Bool) :
    (f.atTop statement behindImports).text.isEncodable := by
  obtain ⟨-, -, pre, post, hpre, hpost, htext⟩ := f.atTop_eq statement behindImports
  rw [htext, isEncodable_append, isEncodable_append, h, isEncodable_of_isBlank hpre,
    isEncodable_of_isBlank hpost]
  rfl

lemma isEncodable_style : f.style.quote.isEncodable ∧ f.style.semicolon.isEncodable := by
  rw [style]
  split
  · rename_i s hs
    have hquote := (mem_filter.mp (mem_of_getLast? hs)).2
    simp only [Bool.or_eq_true, beq_iff_eq] at hquote
    refine ⟨?_, ?_⟩
    · rcases hquote with hquote | hquote <;> rw [hquote] <;> rfl
    · simp only
      split_ifs <;> rfl
  · exact ⟨rfl, rfl⟩

/-- Merging names brings in no surrogate. -/
lemma isEncodable_of_mem_mergeInto {target : ImportStatement} (h : ∀ r ∈ wanted, r.IsEncodable) :
    ∀ p ∈ (mergeInto target wanted).1, p.text.isEncodable := by
  have hnamed : ∀ p ∈ mergeNamed target (wanted.filter fun r => r.kind == .named),
      p.text.isEncodable := by
    have hnames := isEncodable_specifiers (fun r hr => h r (mem_of_mem_filter hr) :
      ∀ r ∈ wanted.filter fun r => r.kind == .named, r.IsEncodable)
    unfold mergeNamed
    split <;> simp [hnames, isEncodable_inBraces hnames]
  have hdefault : ∀ default : Option ImportRequirement, (∀ r ∈ default, r ∈ wanted) →
      ∀ p ∈ mergeDefault target default, p.text.isEncodable := by
    intro default hwanted
    unfold mergeDefault
    split
    · rename_i r _ _ _
      have hname := (h r (hwanted r rfl)).localName
      simp [hname]
    · exact forall_mem_nil _
  refine forall_mem_append.mpr ⟨hnamed, hdefault _ fun r hr => ?_⟩
  have hmem := mem_of_find?_eq_some hr
  split_ifs at hmem
  · exact hmem
  · exact mem_of_mem_filter hmem

/-- Nor does what is planned for a module. -/
lemma isEncodable_of_mem_planModule (h : ∀ r ∈ wanted, r.IsEncodable ∧ r.source = source) :
    ∀ p ∈ f.planModule source wanted, p.text.isEncodable := by
  have hnew : ∀ rest ⊆ wanted, ∀ p ∈ (importStatements f.style source rest).map (f.atTop · false),
      p.text.isEncodable := by
    intro rest hrest p hp
    obtain ⟨s, hs, rfl⟩ := mem_map.mp hp
    exact f.isEncodable_atTop (isEncodable_of_mem_importStatements f.isEncodable_style.1
      f.isEncodable_style.2 (fun r hr => h r (hrest hr)) s hs) false
  rw [planModule]
  split
  · rename_i merged rest hmerge
    split at hmerge
    · rename_i target _
      obtain ⟨rfl, rfl⟩ := Prod.mk.inj hmerge
      refine forall_mem_append.mpr ⟨?_, hnew _ ?_⟩
      · exact isEncodable_of_mem_mergeInto fun r hr => (h r hr).1
      · exact mergeInto_subset target wanted
    · obtain ⟨rfl, rfl⟩ := Prod.mk.inj hmerge
      exact hnew wanted (List.Subset.refl _)

/-- **What is inserted for imports.** -/
theorem isEncodable_of_mem_planImports (h : ∀ r ∈ required, r.IsEncodable) :
    ∀ p ∈ f.planImports required, p.text.isEncodable := by
  have hunmet : ∀ r ∈ f.unmet required, r.IsEncodable := fun r hr => h r (mem_of_mem_filter hr)
  have hverbatim : ∀ t ∈ ((f.unmet required).filterMap ImportRequirement.statement).foldl addOnce [],
      t.isEncodable := by
    intro t ht
    obtain ⟨r, hr, hstatement⟩ := mem_filterMap.mp
      ((mem_foldl_addOnce.mp ht).resolve_left not_mem_nil)
    exact (hunmet r hr).statement t hstatement
  rw [planImports]
  refine forall_mem_append.mpr ⟨fun p hp => ?_, fun p hp => ?_⟩
  · obtain ⟨s, hs, rfl⟩ := mem_map.mp hp
    exact f.isEncodable_atTop (hverbatim s hs) false
  · obtain ⟨⟨source, wanted⟩, hentry, hp⟩ := mem_flatMap.mp hp
    refine f.isEncodable_of_mem_planModule (fun r hr => ?_) p hp
    obtain ⟨hmem, hsource⟩ := (grouped_missing _).sound _ hentry r hr
    exact ⟨hunmet r (mem_of_mem_filter hmem), hsource⟩

/-- Nor does what is planned for a function. -/
lemma isEncodable_of_mem_planFunction (fn : Node) (h : statement.isEncodable) (hook : Text) :
    ∀ p ∈ f.planFunction fn statement hook, p.text.isEncodable := by
  cases hbody : fn.child? "body" with
  | none =>
    simp only [planFunction, hbody]
    exact forall_mem_nil _
  | some body =>
    have hcases := f.planFunction_cases fn statement hook hbody
    split_ifs at hcases
    · rcases hcases with ⟨-, hplan⟩ | ⟨-, pre, post, hpre, hpost, hplan⟩
      · simp [hplan]
      · simp [hplan, h, isEncodable_of_isBlank hpre, isEncodable_of_isBlank hpost]
    · obtain ⟨pre, post, last, hpre, hpost, hlast, hplan⟩ := hcases
      simp [hplan, h, isEncodable_of_isBlank hpre, isEncodable_of_isBlank hpost,
        isEncodable_of_isBlank hlast]

/-- Nor does an accessor that is acquired. -/
lemma isEncodable_of_planAcquisition (hnames : ∀ s ∈ f.imports, ∀ x ∈ s.named, x.2.isEncodable)
    {a : Acquisition} (ha : a.IsEncodable) {here : List Placement} (h : f.planAcquisition a = .ok here) :
    ∀ p ∈ here, p.text.isEncodable := by
  have hhook : (f.hook a).isEncodable := by
    rw [hook, localBinding]
    cases hknown : f.imports.findSome? fun s =>
        if s.source == a.hookSource && !s.typeOnly then s.named.lookup a.hookName else none with
    | none => exact isEncodable_filled?_getD ha.hookAlias ha.hookName
    | some known =>
      obtain ⟨s, hs, hlookup⟩ := exists_of_findSome?_eq_some hknown
      split_ifs at hlookup
      exact hnames s hs _ (mem_of_lookup hlookup)
  have hstatement : (a.statement (f.hook a)).isEncodable := by
    rw [Acquisition.statement]
    split_ifs <;> simp [isEncodable_inBraces, ha.accessorName, hhook]
  cases howner : a.ownerStart with
  | none =>
    rcases f.planAcquisition_none howner with ⟨-, hplan⟩ | ⟨-, hplan⟩
    · rw [hplan] at h
      obtain rfl := Except.ok.inj h
      exact forall_mem_nil _
    · rw [hplan] at h
      obtain rfl := Except.ok.inj h
      exact fun p hp => mem_singleton.mp hp ▸ f.isEncodable_atTop hstatement true
  | some offset =>
    obtain ⟨fn, -, rfl⟩ := f.planAcquisition_some howner h
    exact f.isEncodable_of_mem_planFunction fn hstatement _

/-- **What is inserted for accessors.** -/
theorem isEncodable_of_planAcquisitions (hnames : ∀ s ∈ f.imports, ∀ x ∈ s.named, x.2.isEncodable)
    (hacquisitions : ∀ a ∈ acquisitions, a.IsEncodable) {acquired : List Placement}
    (h : f.planAcquisitions acquisitions = .ok acquired) :
    ∀ p ∈ acquired, p.text.isEncodable := by
  induction acquisitions generalizing acquired with
  | nil =>
    obtain rfl := Except.ok.inj h
    exact forall_mem_nil _
  | cons a rest ih =>
    rw [planAcquisitions] at h
    obtain ⟨here, hhere, h⟩ := exists_ok_of_bind h
    obtain ⟨others, hothers, h⟩ := exists_ok_of_bind h
    obtain rfl := Except.ok.inj h
    obtain ⟨ha, hrest⟩ := forall_mem_cons.mp hacquisitions
    exact forall_mem_append.mpr
      ⟨f.isEncodable_of_planAcquisition hnames ha hhere, ih hrest hothers⟩

end SourceFile

/-- **A text in which all is in scope** can be written out. If nothing is needed it is the text as it
was; otherwise the text has been parsed. -/
theorem isEncodable_ensureImports {out : Text} {imports : List ImportRequirement}
    (himports : ∀ r ∈ imports, r.IsEncodable)
    (hacquisitions : ∀ a ∈ acquisitions, a.IsEncodable) (ht : imports = [] → acquisitions = [] → t.isEncodable)
    (h : ensureImports parser t imports acquisitions dialect file = .ok out) : out.isEncodable := by
  cases hneeded : imports.isEmpty && acquisitions.isEmpty with
  | true =>
    obtain ⟨himport, hacquire⟩ := Bool.and_eq_true_iff.mp hneeded
    simp only [ensureImports, hneeded, if_true] at h
    obtain rfl := Except.ok.inj h
    exact ht (List.isEmpty_iff.mp himport) (List.isEmpty_iff.mp hacquire)
  | false =>
    obtain ⟨root, acquired, hroot, hacquired, h⟩ := ensureImports_eq_ok hneeded h
    have htext := isEncodable_of_parse hroot
    have hnames : ∀ s ∈ scanImports t root, ∀ x ∈ s.named, x.2.isEncodable :=
      isEncodable_of_mem_scanImports htext
    refine isEncodable_applyInsertions htext (fun i hi => ?_) h
    obtain ⟨n, hn, rfl⟩ := mem_mapIdx.mp hi
    have hall := forall_mem_append.mpr
      ⟨(SourceFile.ofTree t root).isEncodable_of_mem_planImports himports,
        (SourceFile.ofTree t root).isEncodable_of_planAcquisitions hnames hacquisitions hacquired⟩
    exact hall _ (getElem_mem hn)

end Phrasebook
