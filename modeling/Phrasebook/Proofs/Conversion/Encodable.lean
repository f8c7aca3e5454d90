import Phrasebook.Proofs.Component.Encodable
import Phrasebook.Proofs.Conversion.Placement
import Phrasebook.Proofs.Import.Encodable
import Phrasebook.Session.Run

/-!
# Conversions that can be written out

An escape in a quoted string may stand for half of a surrogate pair, so a phrase need not be encodable
although the file is. Where imports are brought in, the new text is parsed and such a phrase is found
out; in templates, and where nothing is imported, it goes into the new text.

## Main results

* `writeConverted_of_isEncodable` — a text that can be written out is written as a whole.
* `convertFile_isEncodable` — if no such phrase has a lone surrogate, the new text can be written out, and
  no file is lost.
-/

namespace Phrasebook

open List Option Text

variable {code dialect : Text}

/-! ## Phrases in quoted strings -/

namespace Workbench

/-- The phrases that are marked in the quoted strings of a script. -/
def scriptPhrases (w : Workbench) (code dialect : Text) : List Phrase :=
  match parse w.parser code dialect w.file, w.extractor code with
  | .ok root, .ok e => e.spelledPhrases root
  | _, _ => []

/-- The phrases that are marked in the string literals of the template of a component. -/
def templatePhrases (w : Workbench) (p : ComponentPlan) : List Phrase :=
  match p.template?, w.extractor p.code with
  | some (_, b), .ok e => TemplateBlock.spelledPhrases ⟨e, b.start, b.content, p.callName⟩
  | _, _ => []

/-- The phrases that are marked in the quoted strings of a script of a component. -/
def blockPhrases (w : Workbench) (b : Block) : List Phrase :=
  match b.dialect w.file with
  | .ok dialect =>
    ({ w with options := w.options.forScript b } : Workbench).scriptPhrases b.content dialect.name
  | .error _ => []

/-- The phrases that are marked in the string literals of the template of a component, and in the quoted
strings of those scripts whose options count. -/
def componentPhrases (w : Workbench) (code : Text) (counts : Options → Bool) : List Phrase :=
  match splitBlocks code with
  | .ok blocks =>
    let p := ComponentPlan.make w.options code blocks
    w.templatePhrases p ++
      (p.scripts.filter fun s => counts (w.options.forScript s.2)).flatMap fun s => w.blockPhrases s.2
  | .error _ => []

end Workbench

/-- The phrases that are marked in the string literals of a file: in its template, and in scripts whose
options count. -/
def spelledPhrases (parser : Parser) (code file : Text) (options : Options) (catalogue : Catalogue)
    (dialect : Option Text) (counts : Options → Bool) : List Phrase :=
  let isComponent := dialect.isNone && isComponentFile file
  match (if isComponent then options.forComponent else options).normalize with
  | .error _ => []
  | .ok (normal, _) =>
    let w : Workbench := ⟨parser, file, normal, catalogue⟩
    if isComponent then w.componentPhrases code counts
    else
      match scriptDialect file dialect with
      | .ok name => if counts normal then w.scriptPhrases code name else []
      | .error _ => []

/-! ## Scripts -/

/-- What is needed in any case can be written out. -/
structure ScriptPlace.IsEncodable (place : ScriptPlace) : Prop where
  imports : ∀ r ∈ place.imports, r.IsEncodable
  acquisitions : ∀ a ∈ place.acquisitions, a.IsEncodable

namespace Workbench

/-- No function of the caller writes anything, and what is given can be written out. -/
structure IsPlain (w : Workbench) : Prop where
  options : w.options.IsPlain
  catalogue : w.catalogue.IsEncodable

variable {w : Workbench} {strict : Bool}

lemma IsPlain.extractor (h : w.IsPlain) (hcode : code.isEncodable) {e : Extractor}
    (he : w.extractor code = .ok e) : e.IsPlain ∧ e.options = w.options := by
  rw [Workbench.extractor] at he
  obtain ⟨delimiter, -, he⟩ := exists_ok_of_bind he
  obtain rfl := Except.ok.inj he
  exact ⟨⟨hcode, h.options, h.catalogue⟩, rfl⟩

/-- A finished script: without imports its changes have to be clean; with them it is parsed. -/
lemma isEncodable_of_finishScript (hcode : code.isEncodable) {c : Collected}
    (himports : ∀ r ∈ c.imports, r.IsEncodable) (hacquisitions : ∀ a ∈ c.acquisitions, a.IsEncodable)
    (hchanges : c.imports = [] → ∀ change ∈ c.changes, change.replacement.isEncodable) {out : Text}
    (h : w.finishScript code dialect c = .ok out) : out.isEncodable := by
  obtain ⟨⟨patched, moved⟩, hpatched, h⟩ := exists_ok_of_bind h
  refine isEncodable_ensureImports himports (fun a ha => ?_)
    (fun hnil _ => isEncodable_applyChanges hcode (hchanges hnil) hpatched) h
  obtain ⟨original, horiginal, rfl⟩ := mem_map.mp ha
  exact { hacquisitions original horiginal with }

/-- **A converted script** can be written out if the phrases in its quoted strings can, or if imports are
brought in. -/
theorem IsPlain.gives_convertScript (h : w.IsPlain) {place : ScriptPlace} (hplace : place.IsEncodable)
    (hclean : (strict || w.options.accessor.noImport) → ∀ p ∈ w.scriptPhrases code dialect, p.isEncodable) :
    Gives (Ledger.IsPlain strict) (w.convertScript code dialect place)
      fun result => result.1.isEncodable = true := by
  rw [convertScript]
  refine Gives.bind (.ofExcept fun _ hroot => hroot) fun root hroot => ?_
  refine Gives.bind (.ofExcept fun _ he => he) fun e he => ?_
  have hcode := isEncodable_of_parse hroot
  obtain ⟨hplain, hoptions⟩ := h.extractor hcode he
  rw [scriptPhrases, hroot, he] at hclean
  refine Gives.bind (hplain.gives_collect place.moduleScope root fun hstrict => hclean (by simp [hstrict]))
    fun c hc => ?_
  rw [hoptions] at hc
  simp only
  split_ifs
  · exact .pure hcode
  · refine Gives.bind (.ofExcept fun out hout => ?_) fun out hout => .pure hout
    refine isEncodable_of_finishScript hcode (forall_mem_foldl_addImport hc.imports hplace.imports)
      (forall_mem_foldl_addAcquisition hc.acquisitions hplace.acquisitions) (fun hnil => ?_) hout
    have hnone : c.imports = [] := by
      by_contra hne
      exact foldl_addImport_ne_nil (.inl hne) hnil
    cases hnoImport : w.options.accessor.noImport with
    | false =>
      have hchanges := hc.changes_eq hnoImport hnone
      exact fun change hchange => absurd (hchanges ▸ hchange) not_mem_nil
    | true => exact hc.changes (hclean (by simp [hnoImport]))

end Workbench

/-! ## Components -/

/-- What a plan takes from the file and from the options can be written out. -/
structure ComponentPlan.IsEncodable (p : ComponentPlan) : Prop where
  code : p.code.isEncodable = true
  blocks : ∀ b ∈ p.blocks, b.content.isEncodable = true
  convention : p.convention.IsEncodable

namespace ComponentPlan

variable {p : ComponentPlan}

lemma IsEncodable.callName (h : p.IsEncodable) : p.callName.isEncodable := by
  rw [ComponentPlan.callName]
  split_ifs
  · exact h.convention.callName
  · rfl

lemma IsEncodable.place (h : p.IsEncodable) (templateUsed : Bool) (index : Nat) (b : Block) :
    (p.place templateUsed index b).IsEncodable := by
  simp only [ComponentPlan.place]
  by_cases hacquires : (templateUsed && p.setup == some index)
  · rw [if_pos hacquires]
    exact ⟨h.convention.imports, fun a ha => h.convention.acquisition a (mem_toList.mp ha)⟩
  · rw [if_neg hacquires]
    exact ⟨forall_mem_nil _, forall_mem_nil _⟩

lemma isEncodable_make {o : Options} (ho : o.IsPlain) (hcode : code.isEncodable) {blocks : List Block}
    (hblocks : splitBlocks code = .ok blocks) :
    (make o code blocks).IsEncodable where
  code := hcode
  blocks := fun b hb => by
    rw [((splitBlocks_spec hblocks).1 b hb).content_eq]
    exact isEncodable_slice hcode _ _
  convention := ho.isEncodable_convention .component none

lemma IsEncodable.assemble (h : p.IsEncodable) {contents : List (Nat × Text)}
    (hcontents : ∀ x ∈ contents, x.2.isEncodable) :
    (Workbench.assemble p contents).isEncodable := by
  refine List.foldlRecOn _ _ h.code (motive := fun t : Text => t.isEncodable)
    fun t ht x hx => isEncodable_splice ht ?_ _ _
  have hmem := (sortDescending_perm _ _).mem_iff.mp hx
  obtain ⟨⟨index, content⟩, hentry, hfound⟩ := mem_filterMap.mp hmem
  obtain ⟨b, -, rfl⟩ := map_eq_some_iff.mp hfound
  exact hcontents _ hentry

end ComponentPlan

namespace Workbench

variable {w : Workbench} {strict : Bool} {p : ComponentPlan}

/-- The converted template of a component. -/
lemma IsPlain.gives_convertTemplate (h : w.IsPlain) (hp : p.IsEncodable)
    (hclean : ∀ phrase ∈ w.templatePhrases p, phrase.isEncodable) :
    Gives (Ledger.IsPlain strict) (w.convertTemplate p)
      fun progress => ∀ x ∈ progress.contents, x.2.isEncodable := by
  rw [convertTemplate]
  cases htemplate : p.template? with
  | none => exact .pure (forall_mem_nil _)
  | some found =>
    obtain ⟨index, b⟩ := found
    refine Gives.bind (.ofExcept fun _ he => he) fun e he => ?_
    rw [templatePhrases, htemplate, he] at hclean
    have hblock : TemplateBlock.IsPlain ⟨e, b.start, b.content, p.callName⟩ :=
      ⟨(h.extractor hp.code he).1, hp.blocks b (p.mem_of_template? htemplate).1, hp.callName⟩
    refine Gives.bind (hblock.gives_convert hclean) fun result hresult => ?_
    simp only
    split_ifs
    · exact .pure (forall_mem_nil _)
    · exact .pure (forall_mem_singleton.mpr hresult)

/-- The converted scripts of a component. -/
lemma IsPlain.gives_convertScripts (h : w.IsPlain) (hp : p.IsEncodable) (templateUsed : Bool)
    {scripts : List (Nat × Block)}
    (hclean : ∀ s ∈ scripts, (strict || (w.options.forScript s.2).accessor.noImport) →
      ∀ phrase ∈ w.blockPhrases s.2, phrase.isEncodable) :
    Gives (Ledger.IsPlain strict) (w.convertScripts p templateUsed scripts)
      fun progress => ∀ x ∈ progress.contents, x.2.isEncodable := by
  induction scripts with
  | nil => exact .pure (forall_mem_nil _)
  | cons script rest ih =>
    obtain ⟨index, b⟩ := script
    obtain ⟨hhere, hrest⟩ := forall_mem_cons.mp hclean
    rw [convertScripts]
    refine Gives.bind (.ofExcept fun _ hdialect => hdialect) fun dialect hdialect => ?_
    rw [blockPhrases, hdialect] at hhere
    have hbench : IsPlain { w with options := w.options.forScript b } :=
      ⟨h.options.forScript b, h.catalogue⟩
    refine Gives.bind (hbench.gives_convertScript (hp.place templateUsed index b) hhere)
      fun result hresult => Gives.bind (ih hrest) fun others hothers => .pure ?_
    refine forall_mem_append.mpr ⟨?_, hothers⟩
    split_ifs
    · exact forall_mem_nil _
    · exact forall_mem_singleton.mpr hresult

/-- **A converted component** can be written out if the phrases in the string literals of its template
can, and those of the scripts into which nothing is imported. -/
theorem IsPlain.gives_convertComponent (h : w.IsPlain) (hcode : code.isEncodable)
    (hclean : ∀ p ∈ w.componentPhrases code fun o => strict || o.accessor.noImport, p.isEncodable) :
    Gives (Ledger.IsPlain strict) (w.convertComponent code)
      fun result => ∀ x ∈ result, x.1.isEncodable := by
  rw [convertComponent]
  refine Gives.bind (.ofExcept fun _ hblocks => eq_ok_of_mapError hblocks) fun blocks hblocks => ?_
  rw [componentPhrases, hblocks] at hclean
  obtain ⟨htemplate, hscripts⟩ := forall_mem_append.mp hclean
  have hp := ComponentPlan.isEncodable_make h.options hcode hblocks
  refine Gives.bind (h.gives_convertTemplate hp htemplate) fun template htemplate' => ?_
  refine Gives.bind (h.gives_convertScripts hp _ fun s hs hcounts phrase hphrase =>
    hscripts phrase (mem_flatMap.mpr ⟨s, mem_filter.mpr ⟨hs, hcounts⟩, hphrase⟩))
    fun scripts hscripts' => ?_
  simp only
  split_ifs
  · exact .pure fun x hx => absurd hx (by simp)
  · refine .pure fun x hx => mem_some.mp hx ▸ ?_
    exact hp.assemble (forall_mem_append.mpr ⟨htemplate', hscripts'⟩)

lemma IsPlain.gives_scriptWork (h : w.IsPlain) {dialect : Option Text}
    (hclean : ∀ name, scriptDialect w.file dialect = .ok name →
      (strict || w.options.accessor.noImport) → ∀ p ∈ w.scriptPhrases code name, p.isEncodable) :
    Gives (Ledger.IsPlain strict) (w.scriptWork code dialect)
      fun result => ∀ x ∈ result, x.1.isEncodable := by
  refine Gives.bind (.ofExcept fun _ hname => hname) fun name hname => ?_
  refine Gives.bind (h.gives_convertScript ⟨forall_mem_nil _, forall_mem_nil _⟩
    (hclean name hname)) fun result hresult => .pure fun x hx => ?_
  exact mem_some.mp hx ▸ hresult

end Workbench

/-! ## Files -/

/-- **A text that can be written out is written as a whole**: the disk stays as it is, or the file holds
the new text. -/
theorem writeConverted_of_isEncodable {o : Outcome} (h : o.code.isEncodable) (d : Disk) (p : Path)
    (dryRun : Bool) (code : Text) :
    ∃ done d', writeConverted d p dryRun code o = (.ok done, d') ∧
      (d' = d ∨ ∃ bytes, o.code.encode = .ok bytes ∧ d.write p bytes = .ok d') := by
  have hencode : o.code.encode = .ok (o.code.flatMap Text.encodePoint) := by
    rw [Text.encode, firstSurrogates?_eq_none_iff.mpr h]
  rw [writeConverted]
  split
  · exact ⟨_, d, rfl, .inl rfl⟩
  · split_ifs
    · exact ⟨_, d, rfl, .inl rfl⟩
    · exact ⟨_, d, rfl, .inl rfl⟩
    · simp only [hencode]
      cases hwrite : d.write p (o.code.flatMap Text.encodePoint) with
      | error e => exact ⟨_, d, rfl, .inl rfl⟩
      | ok d' => exact ⟨_, d', rfl, .inr ⟨_, rfl, hwrite⟩⟩

section Files

variable {parser : Parser} {code file : Text} {options : Options} {catalogue : Catalogue}
  {dialect : Option Text} {earlier requests : List KeyRequest} {o : Outcome}

/-- The outcome of a file, if the phrases in its string literals can be written out. -/
lemma isEncodable_of_convertFile (strict : Bool) (hcode : code.isEncodable)
    (hoptions : options.IsPlain) (hcatalogue : catalogue.IsEncodable)
    (h : convertFile parser code file options catalogue dialect earlier = .ok (o, requests))
    (hclean : ∀ p ∈ spelledPhrases parser code file options catalogue dialect
      fun o => strict || o.accessor.noImport, p.isEncodable) :
    o.code.isEncodable ∧
      (strict → ∀ r ∈ o.extracted, r.key.isEncodable ∧ r.value.isEncodable) := by
  obtain ⟨normal, warnings, hnormal, ho⟩ := convertFile_outcome h
  have hgiven : (if dialect.isNone && isComponentFile file then options.forComponent
      else options).IsPlain := by
    split_ifs
    · exact hoptions.forComponent
    · exact hoptions
  have hw : Workbench.IsPlain ⟨parser, file, normal, catalogue⟩ :=
    ⟨hgiven.normalize hnormal, hcatalogue⟩
  have hwork : Gives (Ledger.IsPlain strict)
      (if dialect.isNone && isComponentFile file then
        Workbench.convertComponent ⟨parser, file, normal, catalogue⟩ code
      else Workbench.scriptWork ⟨parser, file, normal, catalogue⟩ code dialect)
      fun result => ∀ x ∈ result, x.1.isEncodable := by
    simp only [spelledPhrases, hnormal] at hclean
    by_cases hcomponent : (dialect.isNone && isComponentFile file)
    · rw [if_pos hcomponent] at hclean ⊢
      exact hw.gives_convertComponent hcode hclean
    · rw [if_neg hcomponent] at hclean ⊢
      refine hw.gives_scriptWork fun name hname hcounts => ?_
      simp only [hname, hcounts, if_true] at hclean
      exact hclean
  have hbooks : Ledger.IsPlain strict { requests := earlier } :=
    ⟨forall_mem_nil _, fun _ => forall_mem_nil _, forall_mem_nil _⟩
  rw [ho]
  rcases conclude_cases code file warnings earlier _ with hsame | ⟨output, changes, books, hrun, hdone⟩
  · rw [hsame.code_eq, hsame.extracted_eq]
    exact ⟨hcode, fun _ => forall_mem_nil _⟩
  · obtain ⟨hplain, hresult⟩ := hwork _ _ _ hrun hbooks
    rw [hdone]
    exact ⟨hresult _ rfl, hplain.extracted⟩

/-- **What the conversion of a file gives can be written out**, if the marked phrases in its quoted strings
can. For the new text only those count that are not parsed again: the phrases of the template, and of
scripts into which nothing is imported; for the records of new keys all of them count. A file is then
written as a whole or not at all. -/
theorem convertFile_isEncodable (hcode : code.isEncodable = true) (hoptions : options.IsPlain)
    (hcatalogue : catalogue.IsEncodable)
    (h : convertFile parser code file options catalogue dialect earlier = .ok (o, requests)) :
    ((∀ p ∈ spelledPhrases parser code file options catalogue dialect fun o => o.accessor.noImport,
        p.isEncodable = true) →
      o.code.isEncodable = true ∧ ∀ d path dryRun, ∃ done d',
        writeConverted d path dryRun code o = (.ok done, d') ∧
          (d' = d ∨ ∃ bytes, o.code.encode = .ok bytes ∧ d.write path bytes = .ok d')) ∧
    ((∀ p ∈ spelledPhrases parser code file options catalogue dialect fun _ => true,
        p.isEncodable = true) →
      ∀ r ∈ o.extracted, r.key.isEncodable = true ∧ r.value.isEncodable = true) := by
  refine ⟨fun hclean => ?_, fun hclean => ?_⟩
  · have hencodable := (isEncodable_of_convertFile false hcode hoptions hcatalogue h hclean).1
    exact ⟨hencodable, fun d path dryRun => writeConverted_of_isEncodable hencodable d path dryRun code⟩
  · exact (isEncodable_of_convertFile true hcode hoptions hcatalogue h hclean).2 rfl

end Files

/-- The options that nobody has changed are plain. -/
lemma Options.isPlain_default : Options.IsPlain {} where
  writeCall_eq := rfl
  keys := ⟨rfl, fun _ => by simp⟩
  accessor? := fun a ha => absurd ha (by simp)
  plain := by constructor <;> simp
  older := by simp [olderOptions]

/-- Both halves of a surrogate pair are written as escapes, and stand for one character; of one half alone
the new text cannot be written out. -/
theorem convertFile_isEncodable_pair :
    let code : Text := "<template>\x7b\x7b'___\\ud83d\\ude00___'\x7d\x7d</template>"
    let half : Text := "<template>\x7b\x7b'___\\ud83d___'\x7d\x7d</template>"
    let parser := Parser.ofSupplied []
    (∃ o requests, code.isEncodable = true ∧
      convertFile parser code "f.vue" {} [] none [] = .ok (o, requests) ∧ o.problem = none ∧
      (spelledPhrases parser code "f.vue" {} [] none fun _ => true).length = 1 ∧
      (∀ p ∈ spelledPhrases parser code "f.vue" {} [] none fun _ => true, p.isEncodable = true) ∧
      o.code.isEncodable = true ∧
      (∀ d path dryRun, ∃ done d', writeConverted d path dryRun code o = (.ok done, d') ∧
        (d' = d ∨ ∃ bytes, o.code.encode = .ok bytes ∧ d.write path bytes = .ok d')) ∧
      o.extracted.length = 1 ∧
      ∀ r ∈ o.extracted, r.key.isEncodable = true ∧ r.value.isEncodable = true) ∧
    ∃ o requests, half.isEncodable = true ∧
      convertFile parser half "f.vue" {} [] none [] = .ok (o, requests) ∧ o.problem = none ∧
      o.code.isEncodable = false := by
  intro code half parser
  refine ⟨?_, ?_⟩
  · have hconverted : (convertFile parser code "f.vue" {} [] none []).toOption.any
        (fun result => result.1.problem.isNone && result.1.extracted.length == 1) = true := by
      decide +kernel
    obtain ⟨⟨o, requests⟩, hok, hresult⟩ := exists_ok_of_any hconverted
    obtain ⟨hproblem, hlength⟩ := Bool.and_eq_true_iff.mp hresult
    have hphrases : (spelledPhrases parser code "f.vue" {} [] none fun _ => true).length = 1 ∧
        ∀ p ∈ spelledPhrases parser code "f.vue" {} [] none fun _ => true, p.isEncodable = true := by
      decide +kernel
    have hunparsed : ∀ p ∈ spelledPhrases parser code "f.vue" {} [] none fun o => o.accessor.noImport,
        p.isEncodable = true := by
      decide +kernel
    have hcode : code.isEncodable = true := by decide +kernel
    obtain ⟨hwritten, hrecords⟩ :=
      convertFile_isEncodable hcode Options.isPlain_default (forall_mem_nil _) hok
    exact ⟨o, requests, hcode, hok, by simpa using hproblem, hphrases.1, hphrases.2,
      (hwritten hunparsed).1, (hwritten hunparsed).2, by simpa using hlength, hrecords hphrases.2⟩
  · have hconverted : (convertFile parser half "f.vue" {} [] none []).toOption.any
        (fun result => result.1.problem.isNone && !result.1.code.isEncodable) = true := by
      decide +kernel
    obtain ⟨⟨o, requests⟩, hok, hresult⟩ := exists_ok_of_any hconverted
    obtain ⟨hproblem, hlone⟩ := Bool.and_eq_true_iff.mp hresult
    exact ⟨o, requests, by decide +kernel, hok, by simpa using hproblem, by simpa using hlone⟩

end Phrasebook
