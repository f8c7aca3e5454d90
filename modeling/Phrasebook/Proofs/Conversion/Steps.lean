import Phrasebook.Conversion.File
import Phrasebook.Proofs.Component.Template
import Phrasebook.Proofs.Site.Collect

/-!
# The steps of a conversion

What each step of a conversion can do if it does not fail: which changes it gives, where they come
from, and what becomes of the text. Later proofs go by these descriptions and do not open the steps.

## Main results

* `Workbench.runs_convertScript`, `Workbench.runs_convertTemplate` — scripts and templates.
* `Workbench.runs_convertComponent` — components.
* `convertFile_eq_ok`, `conclude_cases` — files, and how a conversion ends.
-/

namespace Phrasebook

variable {changes : List Change} {code output : Text} {p : ComponentPlan} {progress : Progress}

namespace Workbench

variable (w : Workbench) {l l' : Ledger}

lemma extractor_eq_ok {e : Extractor} (h : w.extractor code = .ok e) : e.text = code ∧ e.file = w.file := by
  rw [extractor] at h
  cases hdelim : w.options.delimiter with
  | error problem =>
    rw [hdelim] at h
    cases h
  | ok delimiter =>
    rw [hdelim] at h
    cases h
    exact ⟨rfl, rfl⟩

/-- **A script is collected**, and its changes are made unless nothing is to be done. -/
theorem runs_convertScript {dialect : Text} {place : ScriptPlace}
    (h : Runs (w.convertScript code dialect place) l (output, changes) l') :
    ∃ root e c, parse w.parser code dialect w.file = .ok root ∧ w.extractor code = .ok e ∧
      Runs (e.collect place.moduleScope root) l c l' ∧ changes = c.changes ∧
      ((c.with place).isEmpty → output = code) := by
  rw [convertScript] at h
  obtain ⟨root, hroot, h⟩ := runs_ofExcept_bind.mp h
  obtain ⟨e, he, h⟩ := runs_ofExcept_bind.mp h
  obtain ⟨c, m, hc, h⟩ := runs_bind.mp h
  simp only at h
  refine ⟨root, e, c, hroot, he, ?_⟩
  split_ifs at h with hempty
  · obtain ⟨hpair, rfl⟩ := runs_pure.mp h
    obtain ⟨rfl, rfl⟩ := Prod.mk.inj hpair
    have hnil : c.changes = [] := by
      have hall : (c.changes.isEmpty && _ && _) := hempty
      simpa using (Bool.and_eq_true_iff.mp (Bool.and_eq_true_iff.mp hall).1).1
    exact ⟨hc, hnil.symm, fun _ => rfl⟩
  · obtain ⟨out, -, h⟩ := runs_ofExcept_bind.mp h
    obtain ⟨hpair, rfl⟩ := runs_pure.mp h
    obtain ⟨rfl, rfl⟩ := Prod.mk.inj hpair
    exact ⟨hc, rfl, fun hnone => absurd hnone hempty⟩

/-- **A template has replacements in order**, or nothing changes and nothing is recorded. -/
theorem runs_convertTemplate (h : Runs (w.convertTemplate p) l progress l') :
    (progress = {} ∧ l' = l) ∨
      ∃ index b e splices output, p.template? = some (index, b) ∧ w.extractor p.code = .ok e ∧
        splices ≠ [] ∧ InOrder b.content.length 0 splices ∧
        progress = ⟨[(index, output)],
          splices.map (TemplateBlock.change ⟨e, b.start, b.content, p.callName⟩)⟩ := by
  rw [convertTemplate] at h
  split at h
  · exact .inl (runs_pure.mp h)
  · rename_i index b htemplate
    obtain ⟨e, he, h⟩ := runs_ofExcept_bind.mp h
    obtain ⟨result, m, hconvert, h⟩ := runs_bind.mp h
    obtain ⟨splices, hsplices, rfl⟩ := (TemplateBlock.runs_convert _).mp hconvert
    obtain ⟨hord, hbooks⟩ := TemplateBlock.fills_splices _ _ _ _ hsplices
    simp only at h
    split_ifs at h with hnil
    · obtain ⟨rfl, rfl⟩ := runs_pure.mp h
      exact .inl ⟨rfl, hbooks (by simpa using hnil)⟩
    · obtain ⟨rfl, rfl⟩ := runs_pure.mp h
      exact .inr ⟨index, b, e, splices, _, htemplate, he, by simpa using hnil, hord, rfl⟩

/-- One script and then the others. -/
lemma runs_convertScripts_cons {templateUsed : Bool} {index : Nat} {b : Block} {rest : List (Nat × Block)}
    (h : Runs (w.convertScripts p templateUsed ((index, b) :: rest)) l progress l') :
    ∃ dialect output changes others m,
      Runs (({ w with options := w.options.forScript b } : Workbench).convertScript b.content dialect
        (p.place templateUsed index b)) l (output, changes) m ∧
      Runs (w.convertScripts p templateUsed rest) m others l' ∧
      progress = ⟨(if output == b.content then [] else [(index, output)]) ++ others.contents,
        changes.map (Change.rebase p.code b.start) ++ others.changes⟩ := by
  rw [convertScripts] at h
  obtain ⟨dialect, -, h⟩ := runs_ofExcept_bind.mp h
  obtain ⟨⟨output, changes⟩, m, others, hscript, hothers, rfl⟩ := runs_bind_bind_pure h
  exact ⟨dialect.name, output, changes, others, m, hscript, hothers, rfl⟩

/-- **The template of a component is converted, and then its scripts.** There is a result only if the
content of a block has changed. -/
theorem runs_convertComponent_result {result : Option (Text × List Change)}
    (h : Runs (w.convertComponent code) l result l') :
    ∃ blocks template scripts m, splitBlocks code = .ok blocks ∧
      let plan := ComponentPlan.make w.options code blocks
      Runs (w.convertTemplate plan) l template m ∧
      Runs (w.convertScripts plan (!template.changes.isEmpty) plan.scripts) m scripts l' ∧
      result = if (template.contents ++ scripts.contents).isEmpty then none
        else some (assemble plan (template.contents ++ scripts.contents),
          template.changes ++ scripts.changes) := by
  rw [convertComponent] at h
  obtain ⟨blocks, hblocks, h⟩ := runs_ofExcept_bind.mp h
  obtain ⟨template, m, htemplate, h⟩ := runs_bind.mp h
  obtain ⟨scripts, m', hscripts, h⟩ := runs_bind.mp h
  have hsplit : splitBlocks code = .ok blocks := eq_ok_of_mapError hblocks
  refine ⟨blocks, template, scripts, m, hsplit, htemplate, ?_⟩
  simp only at h ⊢
  split_ifs at h ⊢ with hnil
  · obtain ⟨rfl, rfl⟩ := runs_pure.mp h
    exact ⟨hscripts, rfl⟩
  · obtain ⟨rfl, rfl⟩ := runs_pure.mp h
    exact ⟨hscripts, rfl⟩

/-- **A component that has changed**: the contents of a block have, and the changes are those of its
parts. -/
theorem runs_convertComponent (h : Runs (w.convertComponent code) l (some (output, changes)) l') :
    ∃ blocks template scripts m, splitBlocks code = .ok blocks ∧
      let plan := ComponentPlan.make w.options code blocks
      Runs (w.convertTemplate plan) l template m ∧
      Runs (w.convertScripts plan (!template.changes.isEmpty) plan.scripts) m scripts l' ∧
      template.contents ++ scripts.contents ≠ [] ∧
      changes = template.changes ++ scripts.changes := by
  obtain ⟨blocks, template, scripts, m, hsplit, htemplate, hscripts, hresult⟩ :=
    w.runs_convertComponent_result h
  split_ifs at hresult with hnil
  obtain ⟨-, rfl⟩ := Prod.mk.inj (Option.some.inj hresult)
  exact ⟨blocks, template, scripts, m, hsplit, htemplate, hscripts, by simpa using hnil, rfl⟩

/-- The work on a script is its conversion. -/
lemma runs_scriptWork {dialect : Option Text}
    (h : Runs (w.scriptWork code dialect) l (some (output, changes)) l') :
    ∃ name, Runs (w.convertScript code name {}) l (output, changes) l' := by
  rw [scriptWork] at h
  obtain ⟨name, -, h⟩ := runs_ofExcept_bind.mp h
  obtain ⟨result, m, hscript, h⟩ := runs_bind.mp h
  obtain ⟨hsome, rfl⟩ := runs_pure.mp h
  exact ⟨name, Option.some.inj hsome ▸ hscript⟩

end Workbench

/-! ## Outcomes -/

/-- An outcome that leaves the text as it is, and in which nothing is recorded and nothing changes. -/
structure Outcome.IsUntouched (code : Text) (o : Outcome) : Prop where
  code_eq : o.code = code
  extracted_eq : o.extracted = []
  used_eq : o.used = []
  changes_eq : o.changes = []

/-- **What an outcome can be**: nothing is touched, or the work has been done to its end. -/
theorem conclude_cases (code file : Text) (warnings : List Warning) (earlier : List KeyRequest)
    (work : Bookkeeping (Option (Text × List Change))) :
    (Bookkeeping.conclude code file warnings earlier work).1.IsUntouched code ∨
      ∃ output changes books, Runs work { requests := earlier } (some (output, changes)) books ∧
        (Bookkeeping.conclude code file warnings earlier work).1 =
          { code := output, extracted := books.extracted, used := books.used
            changes := sortChanges changes, warnings := warnings } := by
  simp only [Bookkeeping.conclude, Runs]
  rcases work.run.run { requests := earlier } with ⟨failure | _ | ⟨output, changes⟩, books⟩
  · exact .inl ⟨rfl, rfl, rfl, rfl⟩
  · exact .inl ⟨rfl, rfl, rfl, rfl⟩
  · exact .inr ⟨output, changes, books, rfl, rfl⟩

/-- An outcome without a problem: the work has been done, and its text is the result if there is one. -/
theorem conclude_of_no_problem {file : Text} {warnings : List Warning} {earlier : List KeyRequest}
    {work : Bookkeeping (Option (Text × List Change))}
    (h : (Bookkeeping.conclude code file warnings earlier work).1.problem = none) :
    ∃ result books, Runs work { requests := earlier } result books ∧
      (Bookkeeping.conclude code file warnings earlier work).1.code = (result.map Prod.fst).getD code := by
  revert h
  simp only [Bookkeeping.conclude, Runs]
  rcases work.run.run { requests := earlier } with ⟨failure | _ | ⟨output, changes⟩, books⟩
  · intro h
    cases h
  · exact fun _ => ⟨none, books, rfl, rfl⟩
  · exact fun _ => ⟨some (output, changes), books, rfl, rfl⟩

section Files

variable {parser : Parser} {code file : Text} {options : Options} {catalogue : Catalogue}
  {dialect : Option Text} {earlier requests : List KeyRequest} {o : Outcome}

/-- **The outcome of a file** is that of its work with normal options, as a component or as a script. -/
theorem convertFile_outcome
    (h : convertFile parser code file options catalogue dialect earlier = .ok (o, requests)) :
    ∃ normal warnings, (if dialect.isNone && isComponentFile file then options.forComponent
        else options).normalize = .ok (normal, warnings) ∧
      let w : Workbench := ⟨parser, file, normal, catalogue⟩
      o = (Bookkeeping.conclude code file warnings earlier
        (if dialect.isNone && isComponentFile file then w.convertComponent code
          else w.scriptWork code dialect)).1 := by
  simp only [convertFile] at h
  cases hnormal : (if dialect.isNone && isComponentFile file then options.forComponent
    else options).normalize with
  | error failure =>
    rw [hnormal] at h
    cases h
  | ok normal =>
    rw [hnormal] at h
    refine ⟨normal.1, normal.2, rfl, ?_⟩
    by_cases hcomponent : dialect.isNone && isComponentFile file
    · simp only [hcomponent, if_true] at h ⊢
      cases hsurrogates : code.firstSurrogates? 0 with
      | some e =>
        rw [hsurrogates] at h
        cases h
      | none =>
        rw [hsurrogates] at h
        exact (congrArg Prod.fst (Except.ok.inj h)).symm
    · simp only [hcomponent] at h ⊢
      exact (congrArg Prod.fst (Except.ok.inj h)).symm

/-- **The outcome of a component** is that of its work with normal options. -/
theorem convertFile_component_eq_ok (hfile : isComponentFile file)
    (h : convertFile parser code file options catalogue none earlier = .ok (o, requests)) :
    ∃ normal warnings, options.forComponent.normalize = .ok (normal, warnings) ∧
      o = (Bookkeeping.conclude code file warnings earlier
        (Workbench.convertComponent ⟨parser, file, normal, catalogue⟩ code)).1 := by
  have houtcome := convertFile_outcome h
  simpa only [hfile, Option.isNone_none, Bool.and_self, if_true] using houtcome

/-- **The outcome of a file is that of its work**, as a component or as a script. -/
theorem convertFile_eq_ok
    (h : convertFile parser code file options catalogue dialect earlier = .ok (o, requests)) :
    ∃ (w : Workbench) (warnings : List Warning) (work : Bookkeeping (Option (Text × List Change))),
      w.parser = parser ∧ w.file = file ∧
      (work = w.convertComponent code ∨ work = w.scriptWork code dialect) ∧
      o = (Bookkeeping.conclude code file warnings earlier work).1 := by
  obtain ⟨normal, warnings, -, ho⟩ := convertFile_outcome h
  refine ⟨⟨parser, file, normal, catalogue⟩, warnings, _, rfl, rfl, ?_, ho⟩
  split_ifs
  · exact .inl rfl
  · exact .inr rfl

end Files

end Phrasebook
