import Phrasebook.Proofs.Conversion.Steps
import Phrasebook.Proofs.Message.Encodable
import Phrasebook.Proofs.Options.Normalize

/-!
# What a conversion does to the books

A conversion writes into the books in one way only: it asks for the keys of phrases.

## Main results

* `books_of_convertFile` — whatever every such inquiry leaves as it is holds of the books at the end.
* `extracted_of_convertFile` — without functions of the caller, the key of a new message is its
  text, which is not empty.
-/

namespace Phrasebook

open List

variable {code : Text} {e : Extractor}

/-- `Upholds I x`: if the step `x` finds books with `I`, it leaves such books. -/
def Upholds {α : Type} (I : Ledger → Prop) (x : Bookkeeping α) : Prop := Gives I x fun _ => True

namespace Upholds

variable {α β : Type} {I : Ledger → Prop}

lemma pure (a : α) : Upholds I (Pure.pure a) := Gives.pure trivial

lemma throw (failure : Failure) : Upholds I (MonadExcept.throw failure : Bookkeeping α) := Gives.throw

lemma bind {x : Bookkeeping α} {f : α → Bookkeeping β} (hx : Upholds I x) (hf : ∀ a, Upholds I (f a)) :
    Upholds I (x >>= f) :=
  Gives.bind hx fun a _ => hf a

lemma ofExcept (x : Except Failure α) : Upholds I (.ofExcept x) := Gives.ofExcept fun _ _ => trivial

end Upholds

variable {I : Ledger → Prop}

/-! ## Scripts -/

namespace Extractor

variable {e : Extractor}
  (h : ∀ location full, Upholds I (resolveKey e.delimiter e.options.keys e.catalogue location full))
include h

lemma upholds_resolvePhrases (location : Location) (phrases : List Phrase) :
    Upholds I (e.resolvePhrases location phrases) := by
  induction phrases with
  | nil => exact .pure _
  | cons p rest ih => exact (h location p.full).bind fun _ => ih.bind fun _ => .pure _

lemma upholds_resolve (callNames : List Text) (c : Cursor) : Upholds I (e.resolve callNames c) := by
  rw [resolve]
  split
  · exact .throw _
  · exact .pure _
  · refine (upholds_resolvePhrases h _ _).bind fun resolved => ?_
    split_ifs <;> exact .pure _

lemma upholds_resolveAll (callNames : List Text) (cursors : List Cursor) :
    Upholds I (e.resolveAll callNames cursors) := by
  induction cursors with
  | nil => exact .pure _
  | cons c rest ih => exact (upholds_resolve h callNames c).bind fun _ => ih.bind fun _ => .pure _

lemma upholds_collect (moduleScope : Scope) (root : Node) : Upholds I (e.collect moduleScope root) := by
  intro l c l' hrun hl
  obtain ⟨sites, hsites, rfl⟩ := runs_collect hrun
  exact ⟨(upholds_resolveAll h _ _ l sites l' hsites hl).1, trivial⟩

end Extractor

/-! ## Templates -/

namespace TemplateBlock

variable {b : TemplateBlock}
  (h : ∀ location full, Upholds I
    (resolveKey b.extractor.delimiter b.extractor.options.keys b.extractor.catalogue location full))
include h

lemma upholds_resolveAll (offset : Phrase → Nat) (phrases : List Phrase) :
    Upholds I (b.resolveAll offset phrases) := by
  induction phrases with
  | nil => exact .pure _
  | cons p rest ih => exact (h _ p.full).bind fun _ => ih.bind fun _ => .pure _

lemma upholds_steps {x : Bookkeeping (List Splice)} (hx : b.Steps x) : Upholds I x := by
  induction hx with
  | nothing => exact .pure _
  | both _ _ hx hy => exact hx.bind fun _ => hy.bind fun _ => .pure _
  | text => exact (upholds_resolveAll h _ _).bind fun _ => .pure _
  | literal =>
    rw [literalSplice]
    split_ifs
    · exact .pure _
    · simp only
      split
      · exact .throw _
      · refine (upholds_resolveAll h _ _).bind fun resolved => ?_
        split_ifs <;> exact .pure _
  | value =>
    refine (upholds_resolveAll h _ _).bind fun resolved => ?_
    split_ifs <;> exact .pure _

lemma upholds_convert : Upholds I b.convert := (upholds_steps h (steps_splices b)).bind fun _ => .pure _

end TemplateBlock

/-! ## Whole files -/

/-- The keys of a script in a component are chosen as those of the component. -/
lemma Options.keys_forScript (o : Options) (b : Block) : (o.forScript b).keys = o.keys := by
  rw [forScript]
  split <;> rfl

/-- The keys of a component are chosen as the caller says. -/
lemma Options.keys_forComponent (o : Options) : o.forComponent.keys = o.keys := by
  rw [forComponent]
  split_ifs <;> rfl

lemma Options.keys_normalize {o normal : Options} {warnings : List Warning}
    (h : o.normalize = .ok (normal, warnings)) : normal.keys = o.keys := by
  obtain ⟨pattern, plain, -, -, rfl, -⟩ := exists_of_normalize h
  rfl

namespace Workbench

/-- The extractor of a text asks for keys as the workbench says. -/
lemma keys_extractor {w : Workbench} (h : w.extractor code = .ok e) :
    e.options = w.options ∧ e.catalogue = w.catalogue := by
  rw [extractor] at h
  obtain ⟨delimiter, -, h⟩ := exists_ok_of_bind h
  obtain rfl := Except.ok.inj h
  exact ⟨rfl, rfl⟩

/-- `w.Respects I`: each inquiry that is made on a workbench leaves books with `I` as such books. -/
def Respects (w : Workbench) (I : Ledger → Prop) : Prop :=
  ∀ d location full, Upholds I (resolveKey d w.options.keys w.catalogue location full)

variable {w : Workbench} (h : w.Respects I)
include h

lemma upholds_of_extractor (he : w.extractor code = .ok e) (location : Location) (full : Text) :
    Upholds I (resolveKey e.delimiter e.options.keys e.catalogue location full) := by
  obtain ⟨hoptions, hcatalogue⟩ := keys_extractor he
  rw [hoptions, hcatalogue]
  exact h e.delimiter location full

lemma upholds_convertScript (code dialect : Text) (place : ScriptPlace) :
    Upholds I (w.convertScript code dialect place) := by
  refine Upholds.bind (.ofExcept _) fun root => ?_
  refine Gives.bind (.ofExcept fun _ he => he) fun e he => ?_
  refine Upholds.bind (Extractor.upholds_collect (upholds_of_extractor h he) _ root) fun c => ?_
  simp only
  split_ifs
  · exact .pure _
  · exact Upholds.bind (.ofExcept _) fun _ => .pure _

lemma upholds_convertTemplate (p : ComponentPlan) : Upholds I (w.convertTemplate p) := by
  rw [convertTemplate]
  split
  · exact .pure _
  · refine Gives.bind (.ofExcept fun _ he => he) fun e he => ?_
    refine Upholds.bind (TemplateBlock.upholds_convert (upholds_of_extractor h he)) fun result => ?_
    simp only
    split_ifs <;> exact .pure _

lemma upholds_convertScripts (p : ComponentPlan) (templateUsed : Bool) (scripts : List (Nat × Block)) :
    Upholds I (w.convertScripts p templateUsed scripts) := by
  induction scripts with
  | nil => exact .pure _
  | cons script rest ih =>
    obtain ⟨index, b⟩ := script
    have hbench : Respects { w with options := w.options.forScript b } I := fun d location full => by
      rw [Options.keys_forScript]
      exact h d location full
    exact Upholds.bind (.ofExcept _) fun dialect => (upholds_convertScript hbench _ _ _).bind fun _ =>
      ih.bind fun _ => .pure _

/-- **A component leaves the books as its inquiries do.** -/
theorem upholds_convertComponent (code : Text) : Upholds I (w.convertComponent code) := by
  refine Upholds.bind (.ofExcept _) fun blocks => ?_
  refine (upholds_convertTemplate h _).bind fun template => ?_
  refine (upholds_convertScripts h _ _ _).bind fun scripts => ?_
  simp only
  split_ifs <;> exact .pure _

/-- **A script leaves the books as its inquiries do.** -/
theorem upholds_scriptWork (code : Text) (dialect : Option Text) : Upholds I (w.scriptWork code dialect) :=
  Upholds.bind (.ofExcept _) fun _ => (upholds_convertScript h _ _ _).bind fun _ => .pure _

end Workbench

section Files

variable {parser : Parser} {code file : Text} {options : Options} {catalogue : Catalogue}
  {dialect : Option Text} {earlier requests : List KeyRequest} {o : Outcome}

/-- **The records of an outcome are those of books with a property** that every inquiry keeps. -/
theorem books_of_convertFile
    (hupholds : ∀ d location full, Upholds I (resolveKey d options.keys catalogue location full))
    (hempty : I { requests := earlier })
    (h : convertFile parser code file options catalogue dialect earlier = .ok (o, requests)) :
    ∃ books, I books ∧ o.extracted = books.extracted ∧ o.used = books.used := by
  obtain ⟨normal, warnings, hnormal, ho⟩ := convertFile_outcome h
  have hkeys : normal.keys = options.keys := by
    rw [Options.keys_normalize hnormal]
    split_ifs
    · exact options.keys_forComponent
    · rfl
  have hw : Workbench.Respects ⟨parser, file, normal, catalogue⟩ I := by
    simpa only [Workbench.Respects, hkeys] using hupholds
  rw [ho]
  rcases conclude_cases code file warnings earlier _ with hsame | ⟨output, changes, books, hrun, hdone⟩
  · exact ⟨_, hempty, hsame.extracted_eq, hsame.used_eq⟩
  · refine ⟨books, ?_, by rw [hdone], by rw [hdone]⟩
    split_ifs at hrun
    · exact (Workbench.upholds_convertComponent hw code _ _ _ hrun hempty).1
    · exact (Workbench.upholds_scriptWork hw code dialect _ _ _ hrun hempty).1

end Files

/-! ## New keys that are message texts -/

/-- Books in which every new key is its message text, and no message text is empty. -/
structure Ledger.IsKeyedByText (l : Ledger) : Prop where
  generated : ∀ x ∈ l.generated, x.2 = .name x.1
  extracted : ∀ r ∈ l.extracted, r.key = .name r.value ∧ r.value ≠ []

/-- No message text is empty. -/
lemma canonicalize_ne_nil {payload : Text} (h : payload ≠ []) : canonicalize payload ≠ [] := by
  obtain ⟨c, rest, rfl⟩ := exists_cons_of_ne_nil h
  rw [canonicalize, canonicalFrom]
  split_ifs
  · simp
  · split
    · simp
    · have hplaceholder : placeholder 1 ≠ [] := by decide
      simp [hplaceholder]

/-- Nor is the payload of a phrase. -/
lemma Delimiter.payload_ne_nil {d : Delimiter} {full : Text} {p : Phrase} (h : d.phrase? full = some p) :
    p.payload ≠ [] := by
  obtain ⟨hit, -, hphrase⟩ := Option.bind_eq_some_iff.mp h
  rw [Hit.phrase?] at hphrase
  split at hphrase
  · cases hphrase
  · simp only at hphrase
    split_ifs at hphrase with hempty
    obtain rfl := Option.some.inj hphrase
    simpa using hempty

section Keys

variable {value : Text} {location : Location} {policy : KeyPolicy}

lemma upholds_giveNew (hvalue : value ≠ []) :
    Upholds Ledger.IsKeyedByText (giveNew value location (.name value)) := by
  intro l key l' hrun hl
  obtain rfl : l' = l.recordExtracted ⟨.name value, value, location⟩ := (Prod.mk.inj hrun).2.symm
  refine ⟨?_, trivial⟩
  rw [Ledger.recordExtracted]
  split_ifs
  · exact hl
  · refine ⟨hl.generated, forall_mem_append.mpr ⟨hl.extracted, ?_⟩⟩
    exact forall_mem_singleton.mpr ⟨rfl, hvalue⟩

lemma upholds_giveKnown (key : Key) : Upholds Ledger.IsKeyedByText (giveKnown value location key) := by
  intro l k l' hrun hl
  obtain rfl : l' = l.recordUsed ⟨key, value, location⟩ := (Prod.mk.inj hrun).2.symm
  refine ⟨?_, trivial⟩
  rw [Ledger.recordUsed]
  split_ifs
  · exact hl
  · exact ⟨hl.generated, hl.extracted⟩

/-- A new key is the text itself. -/
lemma upholds_resolveNew (hpolicy : policy.IsPlain) (hvalue : value ≠ []) :
    Upholds Ledger.IsKeyedByText (resolveNew policy value location) := by
  intro l key l' hrun hl
  obtain ⟨generated, hgenerated, hgive⟩ := runs_resolveNew hpolicy hl.generated hrun
  exact upholds_giveNew hvalue _ _ _ hgive ⟨hgenerated, hl.extracted⟩

/-- An inquiry leaves every new key as its message text, if no function of the caller makes keys. -/
lemma upholds_resolveKey (hpolicy : policy.IsPlain) (d : Delimiter) (catalogue : Catalogue) (full : Text) :
    Upholds Ledger.IsKeyedByText (resolveKey d policy catalogue location full) := by
  rw [resolveKey]
  cases hphrase : d.phrase? full with
  | none => exact .pure _
  | some p =>
    have hvalue : canonicalize p.payload ≠ [] := canonicalize_ne_nil (Delimiter.payload_ne_nil hphrase)
    simp only
    split
    · refine Upholds.bind ?_ fun key => .pure _
      rw [resolveKnown]
      cases honConflict : policy.onConflict with
      | keep => exact upholds_giveKnown _
      | mint =>
        simp only [hpolicy.generate_eq]
        exact upholds_giveNew hvalue
      | ask decide => exact absurd honConflict (hpolicy.onConflict_ne decide)
    · exact Upholds.bind (upholds_resolveNew hpolicy hvalue) fun key => .pure _

end Keys

/-- **The new keys of a file are its message texts**, if no function of the caller makes keys; no such text
is empty. -/
theorem extracted_of_convertFile {parser : Parser} {file : Text} {options : Options} {catalogue : Catalogue}
    {dialect : Option Text} {earlier requests : List KeyRequest} {o : Outcome} (hkeys : options.keys.IsPlain)
    (h : convertFile parser code file options catalogue dialect earlier = .ok (o, requests)) :
    ∀ r ∈ o.extracted, r.key = .name r.value ∧ r.value ≠ [] := by
  obtain ⟨books, hbooks, hextracted, -⟩ := books_of_convertFile
    (fun d _ full => upholds_resolveKey hkeys d catalogue full)
    ⟨forall_mem_nil _, forall_mem_nil _⟩ h
  rw [hextracted]
  exact hbooks.extracted

end Phrasebook
