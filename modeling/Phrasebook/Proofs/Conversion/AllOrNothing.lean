import Phrasebook.Proofs.Conversion.Steps
import Phrasebook.Tree.Supplied

/-!
# All or nothing

A failure drops the books as a whole. Without a failure every key in the books has been given to a
phrase, the phrase has become an edit, and edits give changes; what is imported or acquired goes along
with edits, too, or with the changes of the template.

## Main results

* `convertFile_all_or_nothing` — a conversion that fails, or that changes nothing, leaves everything as it
  was: the text, and the books.
-/

namespace Phrasebook

open List

variable {code output : Text}

namespace Workbench

variable (w : Workbench) {l l' : Ledger}

/-- **A script without changes** stays as it is if nothing is needed in any case, and nothing is
recorded. -/
theorem convertScript_of_no_changes {dialect : Text} {place : ScriptPlace}
    (himports : place.imports = []) (hacquisitions : place.acquisitions = [])
    (h : Runs (w.convertScript code dialect place) l (output, []) l') : output = code ∧ l' = l := by
  obtain ⟨root, e, c, -, -, hcollect, hnil, hempty⟩ := w.runs_convertScript h
  obtain ⟨rfl, rfl⟩ := e.runs_collect_of_no_changes hcollect hnil.symm
  refine ⟨hempty ?_, rfl⟩
  simp [Collected.with, Collected.isEmpty, himports, hacquisitions]

/-- **The scripts of a component without changes**, neither in them nor in the template. -/
theorem convertScripts_of_no_changes {p : ComponentPlan} {scripts : List (Nat × Block)}
    {progress : Progress} (h : Runs (w.convertScripts p false scripts) l progress l')
    (hnil : progress.changes = []) : progress.contents = [] ∧ l' = l := by
  induction scripts generalizing l progress with
  | nil =>
    obtain ⟨rfl, rfl⟩ := runs_pure.mp h
    exact ⟨rfl, rfl⟩
  | cons script rest ih =>
    obtain ⟨index, b⟩ := script
    obtain ⟨dialect, output, changes, others, m, hscript, hothers, rfl⟩ :=
      w.runs_convertScripts_cons h
    obtain ⟨hchanges, hrest⟩ := append_eq_nil_iff.mp hnil
    obtain rfl := map_eq_nil_iff.mp hchanges
    obtain ⟨rfl, rfl⟩ := convertScript_of_no_changes _ rfl rfl hscript
    obtain ⟨hcontents, rfl⟩ := ih hothers hrest
    exact ⟨by simp [hcontents], rfl⟩

/-- **A component that is converted has changes**: new contents of a block come from changes. -/
theorem changes_ne_nil_of_convertComponent {changes : List Change}
    (h : Runs (w.convertComponent code) l (some (output, changes)) l') : changes ≠ [] := by
  rintro rfl
  obtain ⟨blocks, template, scripts, m, -, htemplate, hscripts, hcontents, hnil⟩ :=
    w.runs_convertComponent h
  obtain ⟨htemplate', hscripts'⟩ := append_eq_nil_iff.mp hnil.symm
  rcases w.runs_convertTemplate htemplate with
    ⟨rfl, rfl⟩ | ⟨index, b, e, splices, out, -, -, hne, -, rfl⟩
  · -- without changes of the template the setup script needs nothing
    have hscripts'' := (w.convertScripts_of_no_changes hscripts hscripts').1
    exact hcontents (by simp [hscripts''])
  · exact hne (map_eq_nil_iff.mp htemplate')

end Workbench

/-- **A conversion does all or nothing.** If it fails, or if nothing changes, the text is what it was
and no key is recorded.

**Proof sketch.** A failure gives an outcome with empty books, and so does a component of which no
block has changed. Otherwise the work has been done to its end: a component has changes then, and a
script without changes is what it was, with empty books. -/
theorem convertFile_all_or_nothing {parser : Parser} {code file : Text} {options : Options}
    {catalogue : Catalogue} {dialect : Option Text} {earlier requests : List KeyRequest} {o : Outcome}
    (h : convertFile parser code file options catalogue dialect earlier = .ok (o, requests))
    (hnone : o.problem.isSome ∨ o.changes = []) :
    o.code = code ∧ o.extracted = [] ∧ o.used = [] ∧ o.changes = [] := by
  suffices huntouched : o.IsUntouched code from
    ⟨huntouched.code_eq, huntouched.extracted_eq, huntouched.used_eq, huntouched.changes_eq⟩
  obtain ⟨w, warnings, work, -, -, hwork, rfl⟩ := convertFile_eq_ok h
  rcases conclude_cases code file warnings earlier work with
    huntouched | ⟨output, changes, books, hrun, heq⟩
  · exact huntouched
  · rw [heq] at hnone ⊢
    have hnil : changes = [] := by
      have hsorted : sortChanges changes = [] := by simpa using hnone
      rw [← length_eq_zero_iff] at hsorted ⊢
      rwa [sortChanges, (sortAscending_perm _ changes).length_eq] at hsorted
    subst hnil
    rcases hwork with rfl | rfl
    · exact absurd rfl (w.changes_ne_nil_of_convertComponent hrun)
    · obtain ⟨name, hscript⟩ := w.runs_scriptWork hrun
      obtain ⟨rfl, rfl⟩ := w.convertScript_of_no_changes rfl rfl hscript
      exact ⟨rfl, rfl, rfl, rfl⟩

/-- A component whose template has got a key before its script turns out to be faulty. -/
theorem convertFile_all_or_nothing_component :
    let code : Text := "<template>a</template><script>b</script>"
    ∃ o requests, convertFile (Parser.ofSupplied []) code "f.vue" { pattern := "(a)" } [] none [] =
        .ok (o, requests) ∧ o.problem.isSome ∧
      o.code = code ∧ o.extracted = [] ∧ o.used = [] ∧ o.changes = [] := by
  intro code
  have hfails : (convertFile (Parser.ofSupplied []) code "f.vue" { pattern := "(a)" } [] none
      []).toOption.any (fun result => result.1.problem.isSome) = true := by decide +kernel
  obtain ⟨⟨o, requests⟩, hok, hproblem⟩ := exists_ok_of_any hfails
  exact ⟨o, requests, hok, hproblem, convertFile_all_or_nothing hok (.inl hproblem)⟩

end Phrasebook
