import Phrasebook.Proofs.Import.Binding
import Phrasebook.Proofs.Options.CustomImport
import Phrasebook.Proofs.Options.Normalize

/-!
# Calls in plain code

In plain code a lookup calls what an import binds: the caller's own statement, or the default export,
a name or the whole module that the options tell. The name of the call begins with the name under which
the import is to be known.

## Main results

* `Options.plainConvention_calls` — what is called, and the import that it needs.
* `planImports_binds_plain_calls` — that name is in scope after the imports have been planned, with one
  exception: an import of the same thing that is there already counts whatever it is called.
-/

namespace Phrasebook

open Option

variable {r : ImportRequirement} {o given : Options} {statement t : Text} {warnings : List Warning}

/-! ## Identifiers -/

lemma isIdentifierLine_of_isIdentifier (h : IsIdentifier t) : isIdentifierLine t :=
  CustomImport.isIdentifierLine_iff.mpr ⟨t, [], h, .inl rfl, (List.append_nil t).symm⟩

/-- An identifier, with or without a line feed behind it. -/
lemma isIdentifierLine_spec (h : isIdentifierLine t) :
    ∃ name blank : Text, takeIdentifier? t = some (name, blank) ∧ blank.IsBlank := by
  obtain ⟨name, r, hname, hr, rfl⟩ := CustomImport.isIdentifierLine_iff.mp h
  have hblank : r.IsBlank := by
    rcases hr with rfl | rfl
    · exact Text.isBlank_nil
    · exact fun c hc => List.mem_singleton.mp hc ▸ rfl
  refine ⟨name, r, takeIdentifier?_eq_some_iff.mpr ⟨rfl, hname, fun c hc => ?_⟩, hblank⟩
  exact (isIdentifierPart_of_isBlank (hblank c (List.mem_of_head? hc))).2

/-- An alias in the caller's own statement is not empty, so it is the name in any case. -/
lemma CustomImport.localName_eq (c : CustomImport) (h : parse? statement = some c) :
    c.localName = (filled? c.newName).getD c.name := by
  obtain ⟨-, -, hnew⟩ := parse?_spec h
  rw [localName]
  cases hc : c.newName with
  | none => rfl
  | some new =>
    simp [filled?, Option.filter, (hnew new hc).ne_nil]

/-! ## Normal options -/

namespace Options

/-- **A namespace in normal options can be used as one.** -/
theorem isIdentifierLine_of_normalize
    (h : given.normalize = .ok (o, warnings)) (htype : o.plain.importType = "namespace") :
    isIdentifierLine o.plain.namespaceName := by
  obtain ⟨f, -, hplain⟩ := (isNormal_of_normalize h).framework
  exact hplain.namespaceName htype

end Options

/-! ## Conventions -/

/-- **A convention that calls what it imports**: it needs one import, and its call begins with the name
under which that is to be known, where white space may stand behind the name. -/
def Convention.Calls (c : Convention) (r : ImportRequirement) : Prop :=
  c.imports = [r] ∧ ∃ name blank rest : Text,
    takeIdentifier? c.callName = some (name, rest) ∧ r.localName = name ++ blank ∧ blank.IsBlank

/-- A call that is an identifier begins with all of it. -/
lemma Convention.calls_of_isIdentifier (h : IsIdentifier r.localName) :
    Convention.Calls ⟨r.localName, [r], none⟩ r :=
  ⟨rfl, r.localName, [], [], h.takeIdentifier?_eq, (List.append_nil _).symm, Text.isBlank_nil⟩

/-- A call of a member of what is imported. -/
lemma Convention.calls_member (h : isIdentifierLine r.localName) (member : Text) :
    Convention.Calls ⟨r.localName ++ "." ++ member, [r], none⟩ r := by
  obtain ⟨name, blank, htake, hblank⟩ := isIdentifierLine_spec h
  have hdot : (CodePoint.scalar '.').isIdentifierPart = false := by decide +kernel
  obtain ⟨hlocal, hname, hstop⟩ := takeIdentifier?_eq_some_iff.mp htake
  refine ⟨rfl, name, blank, blank ++ .scalar '.' :: member, ?_, hlocal, hblank⟩
  refine takeIdentifier?_eq_some_iff.mpr ⟨by simp [hlocal, Text.ofString], hname, ?_⟩
  cases blank with
  | nil => exact fun c hc => some.inj hc ▸ hdot
  | cons => exact hstop

namespace Options

/-- The name of the function that plain code calls, unless the caller's own import binds another. -/
def plainFunction (o : Options) : Text := (filled? o.plain.functionName).getD o.accessor.name

/-- The caller's own import is called by the name that it binds. -/
lemma customConvention_calls {c : CustomImport}
    (h : CustomImport.parse? statement = some c) (functionName : Text) :
    (customConvention c functionName).Calls
      ⟨c.source, c.name, c.kind, c.newName, some c.statement⟩ := by
  have hlocal : c.localName = ImportRequirement.localName
      ⟨c.source, c.name, c.kind, c.newName, some c.statement⟩ := c.localName_eq h
  have hidentifier := CustomImport.isIdentifier_localName h
  rw [customConvention, hlocal]
  rw [hlocal] at hidentifier
  split_ifs
  · exact Convention.calls_member (isIdentifierLine_of_isIdentifier hidentifier) functionName
  · exact Convention.calls_of_isIdentifier hidentifier

/-- What is imported from the module of plain code is called by its name. -/
lemma importConvention_calls {plain : PlainOptions} {functionName : Text}
    (hspace : plain.importType = "namespace" → isIdentifierLine plain.namespaceName)
    (hname : plain.importType ≠ "namespace" → IsIdentifier functionName) (source : Text) :
    ∃ r, (importConvention plain source functionName).Calls r ∧ r.statement = none ∧
      (r.kind = .named ∨ r.kind = .default ∨ r.kind = .star) := by
  rw [importConvention]
  by_cases htype : plain.importType = "namespace"
  · rw [if_pos (by simp [htype])]
    let r : ImportRequirement := { source := source, name := plain.namespaceName, kind := .star }
    have hcalls := Convention.calls_member (r := r) (hspace htype) functionName
    exact ⟨r, hcalls, rfl, .inr (.inr rfl)⟩
  · rw [if_neg (by simp [htype])]
    let kind : ImportKind := if plain.importType == "default" then .default else .named
    let r : ImportRequirement := { source := source, name := functionName, kind := kind }
    have hcalls := Convention.calls_of_isIdentifier (r := r) (hname htype)
    refine ⟨r, hcalls, rfl, ?_⟩
    show kind = .named ∨ kind = .default ∨ kind = .star
    simp only [kind]
    split_ifs
    · exact .inr (.inl rfl)
    · exact .inl rfl

/-- **How plain code calls**: by the caller's own import, or by what it imports from its module. -/
theorem plainConvention_calls
    (hnormal : given.normalize = .ok (o, warnings)) (hplain : o.customImport?.isSome ∨ o.plain.source.isSome)
    (hname : o.customImport? = none → o.plain.importType ≠ "namespace" → isIdentifier o.plainFunction)
    (owner : Option Int) :
    ∃ r, (o.plainConvention owner).Calls r ∧
      r.statement = o.customImport?.map CustomImport.statement ∧
      (∀ c ∈ o.customImport?, c.localName = r.localName) ∧
      (r.kind = .named ∨ r.kind = .default ∨ r.kind = .star) := by
  rw [plainConvention]
  cases hcustom : o.customImport? with
  | some c =>
    obtain ⟨statement, -, hparse⟩ := bind_eq_some_iff.mp hcustom
    refine ⟨_, customConvention_calls hparse o.plainFunction, rfl, ?_, (CustomImport.parse?_spec hparse).1⟩
    rintro _ ⟨⟩
    exact c.localName_eq hparse
  | none =>
    cases hsource : o.plain.source with
    | none => simp [hcustom, hsource] at hplain
    | some source =>
      obtain ⟨r, hcalls, hstatement, hkind⟩ :=
        importConvention_calls (isIdentifierLine_of_normalize hnormal)
          (fun htype => isIdentifier_iff.mp (hname hcustom htype)) source
      exact ⟨r, hcalls, hstatement, by simp, hkind⟩

/-- What plain code needs does not depend on the function around it, if it does not need the hook. -/
lemma plainConvention_imports_eq (hplain : o.customImport?.isSome ∨ o.plain.source.isSome)
    (owner owner' : Option Int) : (o.plainConvention owner).imports = (o.plainConvention owner').imports := by
  simp only [plainConvention]
  cases hcustom : o.customImport? with
  | some c => rfl
  | none =>
    cases hsource : o.plain.source with
    | none => simp [hcustom, hsource] at hplain
    | some source => rfl

/-- Only plain code imports a default export, so there is only one. -/
lemma mem_plainConvention_of_default (hplain : o.customImport?.isSome ∨ o.plain.source.isSome) {scope : Scope}
    {owner : Option Int} (hr : r ∈ (o.convention scope owner).imports) (hkind : r.kind = .default)
    (owner' : Option Int) : r ∈ (o.plainConvention owner').imports := by
  have hhook : ∀ r ∈ (o.hookConvention owner).imports, r.kind = .named := by
    simp [hookConvention]
  unfold convention at hr
  split_ifs at hr
  · cases hr
  · cases scope with
    | component | hook => simp [hhook r hr] at hkind
    | plain => exact plainConvention_imports_eq hplain owner owner' ▸ hr

end Options

/-! ## After planning -/

/-- **What a call in plain code needs is imported.** The call begins with the name under which one import
is to be known. A statement of the file imports it already, by whatever name unless the caller has a
statement for it; or the caller's own statement is inserted, or a text that brings the name into scope.

**Proof sketch.** The requirement is the one of the convention (`plainConvention_calls`), and it is not
left out (`planImports_introduces`). A default export could only be crowded out by another one, and no
other convention imports one. -/
theorem planImports_binds_plain_calls {given o : Options} {warnings : List Warning}
    (hnormal : given.normalize = .ok (o, warnings)) (himport : o.accessor.noImport = false)
    (hplain : o.customImport?.isSome ∨ o.plain.source.isSome)
    (hname : o.customImport? = none → o.plain.importType ≠ "namespace" →
      isIdentifier o.plainFunction = true)
    {required : List ImportRequirement} {owner : Option Int}
    (hneeded : (o.convention .plain owner).imports ⊆ required)
    (hrequired : ∀ r ∈ required, ∃ scope owner, r ∈ (o.convention scope owner).imports)
    {t : Text} {root : Node}
    (htypes : o.customImport? = none → ∀ r ∈ (o.convention .plain owner).imports,
      (SourceFile.ofTree t root).NoTypesAlone r.source) :
    let f := SourceFile.ofTree t root
    ∃ r, (o.convention .plain owner).Calls r ∧
      ((∃ s ∈ f.imports, s.source = r.source ∧ s.typeOnly = false ∧
          ∃ known, s.knownAs? r = some known ∧ (o.customImport?.isSome → known = r.localName)) ∨
        (∃ c, o.customImport? = some c ∧ c.localName = r.localName ∧
          f.atTop c.statement false ∈ f.planImports required) ∨
        (o.customImport? = none ∧ ∃ p ∈ f.planImports required, f.Introduces r.source r.localName p)) := by
  intro f
  have hconvention : ∀ owner, o.convention .plain owner = o.plainConvention owner := by
    intro owner
    simp [Options.convention, himport]
  rw [hconvention] at hneeded htypes ⊢
  obtain ⟨r, hcalls, hstatement, hlocal, hkind⟩ :=
    Options.plainConvention_calls hnormal hplain hname owner
  have hr : r ∈ (o.plainConvention owner).imports := by simp [hcalls.1]
  have honly : r.kind = .default → ∀ r' ∈ required,
      r'.kind = .default → r'.statement = none → r'.source = r.source → r' = r := by
    intro _ r' hr' hdefault _ _
    obtain ⟨scope, owner', hmem⟩ := hrequired r' hr'
    have hmem' := Options.mem_plainConvention_of_default hplain hmem hdefault owner
    simpa [hcalls.1] using hmem'
  have htypes' : r.statement = none → f.NoTypesAlone r.source := fun hnone =>
    htypes (map_eq_none_iff.mp (hstatement ▸ hnone)) r hr
  refine ⟨r, hcalls, ?_⟩
  rcases f.planImports_introduces (hneeded hr) hkind htypes' honly with
    ⟨s, hs, hmeets⟩ | ⟨statement, hown, hplaced⟩ | ⟨hnone, p, hp, hintro⟩
  · obtain ⟨hsource, htype, known, hknown, hsame⟩ := s.meets_spec hmeets
    refine .inl ⟨s, hs, hsource, htype, known, hknown, fun hcustom => hsame ?_⟩
    simpa [hstatement] using hcustom
  · rw [hown] at hstatement
    obtain ⟨c, hc, hcstatement⟩ := map_eq_some_iff.mp hstatement.symm
    exact .inr (.inl ⟨c, hc, hlocal c hc, hcstatement ▸ hplaced⟩)
  · rw [hnone] at hstatement
    exact .inr (.inr ⟨map_eq_none_iff.mp hstatement.symm, p, hp, hintro⟩)

/-- An import under another name. -/
def aliasedImport : Text := "import \x7b t as translate \x7d from \"i18next\";\n"

/-- The tree of that import. -/
def aliasedImportTree : Node :=
  .mk { kind := "program", start := 0, stop := 42 } [
    .mk { kind := "import_statement", start := 0, stop := 41 } [
      .mk { kind := "import_clause", start := 7, stop := 25 } [
        .mk { kind := "named_imports", start := 7, stop := 25 } [
          .mk { kind := "import_specifier", start := 9, stop := 23 } [
            .mk { kind := "identifier", start := 9, stop := 10, field := some "name" } [],
            .mk { kind := "identifier", start := 14, stop := 23, field := some "alias" } []]]],
      .mk { kind := "string", start := 31, stop := 40, field := some "source" } []]]

/-- An import of a type. -/
def typeImport : Text := "import \x7b type T \x7d from \"i18next\";\n"

/-- The tree of that import. -/
def typeImportTree : Node :=
  .mk { kind := "program", start := 0, stop := 34 } [
    .mk { kind := "import_statement", start := 0, stop := 33 } [
      .mk { kind := "import_clause", start := 7, stop := 17 } [
        .mk { kind := "named_imports", start := 7, stop := 17 } [
          .mk { kind := "import_specifier", start := 9, stop := 15 } [
            .mk { kind := "type", start := 9, stop := 13 } [],
            .mk { kind := "identifier", start := 14, stop := 15, field := some "name" } []]]],
      .mk { kind := "string", start := 23, stop := 32, field := some "source" } []]]

/-- **Calls that are left without an import.** An import counts under whatever name; a name next to a
type alone is written without a comma; a function name with a dot is not the name of an export. -/
theorem planImports_leaves_plain_calls_unbound :
    (∃ o warnings, Options.normalize {} = .ok (o, warnings) ∧
      (o.convention .plain none).callName = "t" ∧
      (SourceFile.ofTree aliasedImport aliasedImportTree).planImports
        (o.convention .plain none).imports = [] ∧
      (SourceFile.ofTree aliasedImport aliasedImportTree).imports.map ImportStatement.named =
        [[(("t" : Text), ("translate" : Text))]] ∧
      (SourceFile.ofTree typeImport typeImportTree).planImports (o.convention .plain none).imports =
        [⟨8, " t ", false⟩]) ∧
    ∃ o warnings, Options.normalize { plain := { functionName := some "i18n.t" } } = .ok (o, warnings) ∧
      (o.convention .plain none).callName = "i18n.t" ∧
      (SourceFile.ofTree [] (.mk { kind := "program", start := 0, stop := 0 } [])).planImports
        (o.convention .plain none).imports =
          [⟨0, "import \x7b i18n.t \x7d from \"i18next\";\n", false⟩] := by
  constructor
  · have hplan : (Options.normalize {}).toOption.any (fun r => decide
        ((r.1.convention .plain none).callName = ("t" : Text) ∧
        (SourceFile.ofTree aliasedImport aliasedImportTree).planImports
          (r.1.convention .plain none).imports = [] ∧
        (SourceFile.ofTree typeImport typeImportTree).planImports (r.1.convention .plain none).imports =
          [⟨8, " t ", false⟩])) = true := by decide +kernel
    obtain ⟨⟨o, warnings⟩, hnormal, hall⟩ := exists_ok_of_any hplan
    obtain ⟨hcall, hnothing, hcomma⟩ := of_decide_eq_true hall
    exact ⟨o, warnings, hnormal, hcall, hnothing, by decide +kernel, hcomma⟩
  · have hplan : (Options.normalize { plain := { functionName := some "i18n.t" } }).toOption.any
        (fun r => decide ((r.1.convention .plain none).callName = ("i18n.t" : Text) ∧
        (SourceFile.ofTree [] (.mk { kind := "program", start := 0, stop := 0 } [])).planImports
          (r.1.convention .plain none).imports =
            [⟨0, "import \x7b i18n.t \x7d from \"i18next\";\n", false⟩])) = true := by decide +kernel
    obtain ⟨⟨o, warnings⟩, hnormal, hall⟩ := exists_ok_of_any hplan
    exact ⟨o, warnings, hnormal, of_decide_eq_true hall⟩

/-- Another name of the same module is added behind the one that is there. -/
theorem planImports_binds_plain_calls_beside_alias :
    let f := SourceFile.ofTree aliasedImport aliasedImportTree
    ∃ o warnings, Options.normalize { plain := { functionName := some "exists" } } = .ok (o, warnings) ∧
      o.accessor.noImport = false ∧ o.plain.source.isSome ∧ isIdentifier o.plainFunction = true ∧
      (∀ r ∈ (o.convention .plain none).imports, f.NoTypesAlone r.source) ∧
      f.planImports (o.convention .plain none).imports = [⟨23, ", exists", false⟩] ∧
      ∃ r, (o.convention .plain none).Calls r ∧
        ((∃ s ∈ f.imports, s.source = r.source ∧ s.typeOnly = false ∧
            ∃ known, s.knownAs? r = some known ∧ (o.customImport?.isSome → known = r.localName)) ∨
          (∃ c, o.customImport? = some c ∧ c.localName = r.localName ∧
            f.atTop c.statement false ∈ f.planImports (o.convention .plain none).imports) ∨
          (o.customImport? = none ∧ ∃ p ∈ f.planImports (o.convention .plain none).imports,
            f.Introduces r.source r.localName p)) := by
  intro f
  have hplan : (Options.normalize { plain := { functionName := some "exists" } }).toOption.any
      (fun r => decide (r.1.accessor.noImport = false ∧ r.1.plain.source.isSome ∧
      isIdentifier r.1.plainFunction = true ∧
      (∀ q ∈ (r.1.convention .plain none).imports, f.NoTypesAlone q.source) ∧
      f.planImports (r.1.convention .plain none).imports = [⟨23, ", exists", false⟩])) = true := by
    decide +kernel
  obtain ⟨⟨o, warnings⟩, hnormal, hall⟩ := exists_ok_of_any hplan
  obtain ⟨himport, hsource, hname, htypes, hplaced⟩ := of_decide_eq_true hall
  exact ⟨o, warnings, hnormal, himport, hsource, hname, htypes, hplaced,
    planImports_binds_plain_calls hnormal himport (.inr hsource) (fun _ _ => hname)
      (List.Subset.refl _) (fun r hr => ⟨.plain, none, hr⟩) (fun _ => htypes)⟩

end Phrasebook
