import Phrasebook.Import.Plan
import Phrasebook.Proofs.Assoc
import Phrasebook.Proofs.Text.Slice

/-!
# Names that imports bring into scope

A requirement that no import statement meets is written into the file: the caller's own statement as it
is, and any other in a new statement or added to a statement for the same module.

## Main results

* `ImportStatement.meets_spec` — a statement that meets a requirement imports what it asks for.
* `SourceFile.planImports_introduces` — otherwise the text that is written binds the name under which the
  requirement is to be known.
-/

namespace Phrasebook

open List

variable {r : ImportRequirement} {target : ImportStatement} {known : List Text} {t : Text}
  {wanted : List ImportRequirement}

/-! ## Imports that are there -/

/-- The name under which a statement imports what is required. -/
def ImportStatement.knownAs? (s : ImportStatement) (r : ImportRequirement) : Option Text :=
  match r.kind with
  | .default => s.default
  | .star => s.star
  | .named | .other _ => s.named.lookup r.name

/-- **A statement that meets a requirement** imports it from its module, and not as a type. One that
comes with a statement of its own is imported under the very name. -/
theorem ImportStatement.meets_spec {s : ImportStatement} (h : s.meets r) :
    s.source = r.source ∧ s.typeOnly = false ∧
      ∃ known, s.knownAs? r = some known ∧ (r.statement.isSome → known = r.localName) := by
  simp only [meets, Bool.and_eq_true, beq_iff_eq, Bool.not_eq_true'] at h
  obtain ⟨⟨hsource, htype⟩, hbinds⟩ := h
  refine ⟨hsource, htype, ?_⟩
  split_ifs at hbinds with hstatement
  · refine ⟨r.localName, ?_, fun _ => rfl⟩
    rw [bindsLocal] at hbinds
    rw [knownAs?]
    split at hbinds <;> simp_all
  · have hsome : (s.knownAs? r).isSome := by
      rw [provides] at hbinds
      rw [knownAs?]
      split at hbinds <;> simp_all
    obtain ⟨known, hknown⟩ := Option.isSome_iff_exists.mp hsome
    exact ⟨known, hknown, fun hsome => absurd hsome hstatement⟩

/-! ## Requirements by their modules -/

/-- **Requirements in a table by their modules**: none is left out, and nothing else is in it. -/
structure Grouped (missing : List (Text × List ImportRequirement)) (required : List ImportRequirement) :
    Prop where
  complete : ∀ r ∈ required, ∃ wanted, missing.lookup r.source = some wanted ∧ r ∈ wanted
  /-- What is found with a module is required of it. -/
  sound : ∀ entry ∈ missing, ∀ r ∈ entry.2, r ∈ required ∧ r.source = entry.1

namespace Grouped

variable {missing : List (Text × List ImportRequirement)} {required : List ImportRequirement}

/-- The requirements of a module after one has been added. -/
lemma mem_bucket {bucket : List ImportRequirement} {r' : ImportRequirement} :
    r' ∈ (if bucket.contains r then bucket else bucket ++ [r]) ↔ r' = r ∨ r' ∈ bucket := by
  split_ifs with hmem
  · have hr : r ∈ bucket := by simpa using hmem
    constructor
    · exact .inr
    · rintro (rfl | h)
      · exact hr
      · exact h
  · simp [or_comm]

lemma add (h : Grouped missing required) (r : ImportRequirement) :
    Grouped (addMissing missing r) (required ++ [r]) := by
  have hlookup : ∀ source, (addMissing missing r).lookup source = if source == r.source then
      some (if ((missing.lookup r.source).getD []).contains r then (missing.lookup r.source).getD []
        else (missing.lookup r.source).getD [] ++ [r]) else missing.lookup source :=
    fun source => lookup_put missing r.source source _
  constructor
  · intro r' hr'
    rw [hlookup]
    by_cases hsource : r'.source = r.source
    · refine ⟨_, if_pos (beq_iff_eq.mpr hsource), mem_bucket.mpr ?_⟩
      rcases mem_append.mp hr' with hold | hnew
      · obtain ⟨wanted, hwanted, hmem⟩ := h.complete r' hold
        exact .inr (by rw [← hsource, hwanted]; exact hmem)
      · exact .inl (mem_singleton.mp hnew)
    · rcases mem_append.mp hr' with hold | hnew
      · rw [if_neg (by simpa using hsource)]
        exact h.complete r' hold
      · exact absurd (congrArg ImportRequirement.source (mem_singleton.mp hnew)) hsource
  · intro entry hentry r' hr'
    rcases mem_put hentry with rfl | hold
    · rcases mem_bucket.mp hr' with rfl | hbucket
      · exact ⟨mem_append_right _ mem_cons_self, rfl⟩
      · cases hfound : missing.lookup r.source with
        | none => simp [hfound] at hbucket
        | some bucket =>
          rw [hfound] at hbucket
          have hsound := h.sound _ (mem_of_lookup hfound) r' hbucket
          exact ⟨mem_append_left _ hsound.1, hsound.2⟩
    · have hsound := h.sound entry hold r' hr'
      exact ⟨mem_append_left _ hsound.1, hsound.2⟩

/-- All requirements are grouped, each added to those before it. -/
lemma foldl (h : Grouped missing required) (more : List ImportRequirement) :
    Grouped (more.foldl addMissing missing) (required ++ more) := by
  induction more generalizing missing required with
  | nil => simpa using h
  | cons r more ih => simpa using ih (h.add r)

end Grouped

/-- Requirements are grouped by their modules. -/
theorem grouped_missing (required : List ImportRequirement) :
    Grouped (required.foldl addMissing []) required := by
  have hnil : Grouped [] [] := ⟨by simp, by simp⟩
  simpa using hnil.foldl required

lemma mem_addOnce {first : Text} : t ∈ addOnce known first ↔ t ∈ known ∨ t = first := by
  rw [addOnce]
  split_ifs with hmem
  · simp only [contains_iff_mem] at hmem
    exact ⟨.inl, fun h => h.elim id fun heq => heq ▸ hmem⟩
  · rw [mem_append, mem_singleton]

lemma mem_foldl_addOnce {texts : List Text} :
    t ∈ texts.foldl addOnce known ↔ t ∈ known ∨ t ∈ texts := by
  induction texts generalizing known with
  | nil => simp
  | cons first rest ih => rw [foldl_cons, ih, mem_addOnce, mem_cons, or_assoc]

/-! ## Texts that bring a name into scope -/

/-- The clause of a new import statement. -/
inductive Clause where
  /-- The default export, and names in braces. -/
  | bindings (default : Option Text) (named : List ImportRequirement)
  | star (name : Text)

namespace Clause

/-- A clause as it is written. -/
def text : Clause → Text
  | bindings default named => Text.join ", "
      (default.toList ++ if named.isEmpty then [] else [inBraces (specifiers named)])
  | star name => "* as " ++ name

/-- The names that a clause binds. -/
def names : Clause → List Text
  | bindings default named => default.toList ++ named.map ImportRequirement.localName
  | star name => [name]

end Clause

namespace SourceFile

variable (f : SourceFile)

/-- A new import statement behind the opening of a file. -/
def newImport (source : Text) (clause : Clause) : Placement :=
  f.atTop ("import " ++ clause.text ++ (" from " ++ f.style.quote ++ source ++ f.style.quote
    ++ f.style.semicolon)) false

/-- **Types are not alone between braces**: where a statement for a module imports no name, its braces
are empty. -/
def NoTypesAlone (source : Text) : Prop :=
  ∀ s ∈ f.imports, s.source = source → s.typeOnly = false → s.lastSpecifier = none →
    ∀ braces ∈ s.braces, ∀ c ∈ braces.namedChildren, c.kind ≠ "import_specifier"

instance (source : Text) : Decidable (f.NoTypesAlone source) :=
  inferInstanceAs (Decidable (∀ s ∈ f.imports, s.source = source → s.typeOnly = false →
    s.lastSpecifier = none → ∀ braces ∈ s.braces, ∀ c ∈ braces.namedChildren,
      c.kind ≠ "import_specifier"))

/-- **A text that brings a name of a module into scope**: a new import statement, or an addition to a
statement for the module that does not import types. Names are added behind the last specifier, in
empty braces, or in new braces behind the clause; the default export comes before it. -/
inductive Introduces (source name : Text) : Placement → Prop
  | statement (clause : Clause) (hname : name ∈ clause.names) :
    Introduces source name (f.newImport source clause)
  | behindSpecifier {s : ImportStatement} {last : Node} {named : List ImportRequirement}
    (hs : s ∈ f.imports) (hsource : s.source = source) (htype : s.typeOnly = false)
    (hlast : s.lastSpecifier = some last) (hname : name ∈ named.map ImportRequirement.localName) :
    Introduces source name ⟨last.stop, ", " ++ specifiers named, false⟩
  | insideBraces {s : ImportStatement} {braces : Node} {named : List ImportRequirement}
    (hs : s ∈ f.imports) (hsource : s.source = source) (htype : s.typeOnly = false)
    (hbraces : s.braces = some braces)
    (hempty : ∀ c ∈ braces.namedChildren, c.kind ≠ "import_specifier")
    (hname : name ∈ named.map ImportRequirement.localName) :
    Introduces source name ⟨braces.start + 1, " " ++ specifiers named ++ " ", false⟩
  | behindClause {s : ImportStatement} {clause : Node} {named : List ImportRequirement}
    (hs : s ∈ f.imports) (hsource : s.source = source) (htype : s.typeOnly = false)
    (hbraces : s.braces = none) (hdefault : s.default.isSome) (hclause : s.clause = some clause)
    (hname : name ∈ named.map ImportRequirement.localName) :
    Introduces source name ⟨clause.stop, ", " ++ inBraces (specifiers named), false⟩
  | beforeClause {s : ImportStatement} {clause : Node} (hs : s ∈ f.imports) (hsource : s.source = source)
    (htype : s.typeOnly = false) (hdefault : s.default = none) (hclause : s.clause = some clause) :
    Introduces source name ⟨clause.start, name ++ ", ", false⟩

variable {f} {source : Text}

/-- The statement into which names are merged is one for their module. -/
lemma mergeTarget?_spec (h : f.mergeTarget? source = some target) :
    target ∈ f.imports ∧ target.source = source ∧ target.typeOnly = false := by
  have hfound := find?_some h
  simp only [Bool.and_eq_true, beq_iff_eq, Bool.not_eq_true'] at hfound
  exact ⟨mem_of_find?_eq_some h, hfound.1.1.1, hfound.1.1.2⟩

/-- Names that are added to a statement, unless there is no place for them. -/
lemma mergeNamed_introduces (htypes : f.NoTypesAlone source) (h : f.mergeTarget? source = some target)
    {named : List ImportRequirement} (hr : r ∈ named) :
    mergeNamed target named = [] ∨
      ∃ p, mergeNamed target named = [p] ∧ f.Introduces source r.localName p := by
  obtain ⟨hmem, hsource, htype⟩ := mergeTarget?_spec h
  have hname : r.localName ∈ named.map ImportRequirement.localName := mem_map_of_mem hr
  unfold mergeNamed
  split
  · exact .inl rfl
  · rename_i hlast
    exact .inr ⟨_, rfl, .behindSpecifier hmem hsource htype hlast hname⟩
  · rename_i hlast hbraces
    have hempty := htypes target hmem hsource htype hlast _ hbraces
    exact .inr ⟨_, rfl, .insideBraces hmem hsource htype hbraces hempty hname⟩
  · rename_i hbraces hdefault hclause
    exact .inr ⟨_, rfl, .behindClause hmem hsource htype hbraces (by simp [hdefault]) hclause hname⟩
  · exact .inl rfl

/-- A default export that is added to a statement, unless there is no place for it. -/
lemma mergeDefault_introduces (h : f.mergeTarget? source = some target) (r : ImportRequirement) :
    mergeDefault target (some r) = [] ∨
      ∃ p, mergeDefault target (some r) = [p] ∧ f.Introduces source r.localName p := by
  obtain ⟨hmem, hsource, htype⟩ := mergeTarget?_spec h
  unfold mergeDefault
  split
  · rename_i hr hdefault hclause
    obtain rfl := Option.some.inj hr
    exact .inr ⟨_, rfl, .beforeClause hmem hsource htype hdefault hclause⟩
  · exact .inl rfl

/-- What is left after merging was wanted. -/
lemma mergeInto_subset (target : ImportStatement) (wanted : List ImportRequirement) :
    (mergeInto target wanted).2 ⊆ wanted := by
  intro r hr
  simp only [mergeInto] at hr
  have hrest : r ∈ if (mergeNamed target (wanted.filter fun r => r.kind == .named)).isEmpty then wanted
      else wanted.filter fun r => r.kind != .named := by
    split_ifs at hr ⊢ <;> first | exact hr | exact mem_of_mem_eraseP hr
  split_ifs at hrest
  · exact hrest
  · exact (mem_filter.mp hrest).1

/-- **What is merged into a statement, and what is left.** -/
theorem mergeInto_introduces (htypes : f.NoTypesAlone source) (h : f.mergeTarget? source = some target)
    (hr : r ∈ wanted) (honly : r.kind = .default → ∀ r' ∈ wanted, r'.kind = .default → r' = r) :
    (∃ p ∈ (mergeInto target wanted).1, f.Introduces source r.localName p) ∨
      r ∈ (mergeInto target wanted).2 := by
  simp only [mergeInto]
  have hrest : r.kind ≠ .named → r ∈ if (mergeNamed target
      (wanted.filter fun r => r.kind == .named)).isEmpty then wanted
        else wanted.filter fun r => r.kind != .named := by
    intro hkind
    split_ifs
    · exact hr
    · exact mem_filter.mpr ⟨hr, by simpa using hkind⟩
  have hsub : ∀ r' ∈ (if (mergeNamed target (wanted.filter fun r => r.kind == .named)).isEmpty then wanted
      else wanted.filter fun r => r.kind != .named), r' ∈ wanted := by
    intro r' hr'
    split_ifs at hr'
    · exact hr'
    · exact (mem_filter.mp hr').1
  by_cases hnamed : r.kind = .named
  · -- Names are added together, or all of them are left.
    have hmem : r ∈ wanted.filter fun r => r.kind == .named :=
      mem_filter.mpr ⟨hr, by simp [hnamed]⟩
    rcases mergeNamed_introduces htypes h hmem with hnone | ⟨p, hp, hintro⟩
    · right
      simp only [hnone, isEmpty_nil, if_true]
      split_ifs
      · exact hr
      · exact (mem_eraseP_of_neg (by simp [hnamed])).mpr hr
    · exact .inl ⟨p, by simp [hp], hintro⟩
  · have hleft := hrest hnamed
    generalize (if (mergeNamed target (wanted.filter fun r => r.kind == .named)).isEmpty then wanted
      else wanted.filter fun r => r.kind != .named) = rest at hleft hsub
    by_cases hdefault : r.kind = .default
    · -- The one default export is added, or it is left.
      have hfind : rest.find? (fun r => r.kind == .default) = some r := by
        cases hfound : rest.find? fun r => r.kind == .default with
        | none => simpa [hdefault] using find?_eq_none.mp hfound r hleft
        | some r' =>
          have hkind' := find?_some hfound
          rw [honly hdefault r' (hsub r' (mem_of_find?_eq_some hfound)) (by simpa using hkind')]
      rw [hfind]
      rcases mergeDefault_introduces h r with hnone | ⟨p, hp, hintro⟩
      · exact .inr (by simpa [hnone] using hleft)
      · exact .inl ⟨p, by simp [hp], hintro⟩
    · right
      split_ifs
      · exact hleft
      · exact (mem_eraseP_of_neg (by simp [hdefault])).mpr hleft

/-- **What is left comes in new statements.** -/
theorem importStatements_introduces {rest : List ImportRequirement} (hr : r ∈ rest)
    (hkind : r.kind = .named ∨ r.kind = .default ∨ r.kind = .star)
    (honly : r.kind = .default → ∀ r' ∈ rest, r'.kind = .default → r' = r) :
    ∃ statement ∈ importStatements f.style source rest,
      f.Introduces source r.localName (f.atTop statement false) := by
  rw [importStatements]
  by_cases hstar : r.kind = .star
  · have hmem : r ∈ rest.filter fun r => r.kind == .star := mem_filter.mpr ⟨hr, by simp [hstar]⟩
    exact ⟨_, mem_append_right _ (mem_map_of_mem hmem),
      .statement (.star r.localName) mem_cons_self⟩
  · -- The default export and the names come in one statement.
    have hbound : r.localName ∈ (Clause.bindings ((rest.find? fun r => r.kind == .default).map
        ImportRequirement.localName) (rest.filter fun r => r.kind == .named)).names := by
      rcases hkind with hnamed | hdefault | hstar'
      · exact mem_append_right _
          (mem_map_of_mem (mem_filter.mpr ⟨hr, by simp [hnamed]⟩))
      · refine mem_append_left _ ?_
        cases hfound : rest.find? fun r => r.kind == .default with
        | none => simpa [hdefault] using find?_eq_none.mp hfound r hr
        | some r' =>
          have hkind' := find?_some hfound
          obtain rfl := honly hdefault r' (mem_of_find?_eq_some hfound) (by simpa using hkind')
          simp
      · exact absurd hstar' hstar
    refine ⟨_, mem_append_left _ ?_, .statement _ hbound⟩
    rw [if_neg]
    · exact mem_cons_self
    · intro hempty
      obtain ⟨hnone, hnil⟩ := append_eq_nil_iff.mp (List.isEmpty_iff.mp hempty)
      have hnamed : (rest.filter fun r => r.kind == .named) = [] := by simpa using hnil
      rw [Clause.names, hnone, hnamed] at hbound
      cases hbound

variable (f source) in
/-- Nothing that is wanted of a module is left out. -/
lemma planModule_introduces (htypes : f.NoTypesAlone source)
    (hr : r ∈ wanted) (hkind : r.kind = .named ∨ r.kind = .default ∨ r.kind = .star)
    (honly : r.kind = .default → ∀ r' ∈ wanted, r'.kind = .default → r' = r) :
    ∃ p ∈ f.planModule source wanted, f.Introduces source r.localName p := by
  have hnew : ∀ {merged : List Placement} {rest : List ImportRequirement}, r ∈ rest → rest ⊆ wanted →
      ∃ p ∈ merged ++ (importStatements f.style source rest).map fun s => f.atTop s false,
        f.Introduces source r.localName p := by
    intro merged rest hrest hsub
    obtain ⟨statement, hmem, hintro⟩ := importStatements_introduces hrest hkind
      fun hdefault r' hr' => honly hdefault r' (hsub hr')
    exact ⟨_, mem_append_right _ (mem_map_of_mem hmem), hintro⟩
  rw [planModule]
  cases htarget : f.mergeTarget? source with
  | none => exact hnew hr (List.Subset.refl wanted)
  | some target =>
    rcases mergeInto_introduces htypes htarget hr honly with ⟨p, hp, hintro⟩ | hrest
    · exact ⟨p, mem_append_left _ hp, hintro⟩
    · exact hnew hrest (mergeInto_subset target wanted)

/-- **No requirement is left out.** A statement of the file meets it, or the caller's own statement for
it is inserted, or a text that brings its name into scope. -/
theorem planImports_introduces {required : List ImportRequirement} (hr : r ∈ required)
    (hkind : r.kind = .named ∨ r.kind = .default ∨ r.kind = .star)
    (htypes : r.statement = none → f.NoTypesAlone r.source)
    (honly : r.kind = .default → ∀ r' ∈ required, r'.kind = .default → r'.statement = none →
      r'.source = r.source → r' = r) :
    (∃ s ∈ f.imports, s.meets r) ∨
      (∃ statement, r.statement = some statement ∧ f.atTop statement false ∈ f.planImports required) ∨
        (r.statement = none ∧ ∃ p ∈ f.planImports required, f.Introduces r.source r.localName p) := by
  by_cases hmet : hasImport f.imports r
  · obtain ⟨s, hs, hmeets⟩ := any_eq_true.mp hmet
    exact .inl ⟨s, hs, hmeets⟩
  · right
    have hunmet : r ∈ f.unmet required := mem_filter.mpr ⟨hr, by simpa using hmet⟩
    have hsub : ∀ r' ∈ f.unmet required, r' ∈ required := fun r' h => (mem_filter.mp h).1
    simp only [planImports]
    cases hstatement : r.statement with
    | some statement =>
      refine .inl ⟨statement, rfl, mem_append_left _ (mem_map_of_mem ?_)⟩
      exact mem_foldl_addOnce.mpr (.inr (mem_filterMap.mpr ⟨r, hunmet, hstatement⟩))
    | none =>
      -- The requirement is found with its module, and only what is required of the module with it.
      have hgrouped := grouped_missing ((f.unmet required).filter fun r => r.statement.isNone)
      obtain ⟨wanted, hlookup, hwanted⟩ := hgrouped.complete r
        (mem_filter.mpr ⟨hunmet, by simp [hstatement]⟩)
      have hentry := mem_of_lookup hlookup
      obtain ⟨p, hp, hintro⟩ := f.planModule_introduces r.source (htypes hstatement) hwanted hkind
        fun hdefault r' hr' hdefault' => by
          obtain ⟨hmem, hsource⟩ := hgrouped.sound _ hentry r' hr'
          obtain ⟨hunmet', hnone⟩ := mem_filter.mp hmem
          exact honly hdefault r' (hsub r' hunmet') hdefault' (by simpa using hnone) hsource
      exact .inr ⟨rfl, p, mem_append_right _ (mem_flatMap.mpr ⟨_, hentry, hp⟩), hintro⟩

end SourceFile

end Phrasebook
