import Mathlib.Data.List.Nodup
import Phrasebook.Proofs.Assoc
import Phrasebook.Proofs.Path
import Phrasebook.Proofs.Sorting
import Phrasebook.Proofs.Text.Order
import Phrasebook.Session.Run

/-!
# Files that are finished in any order

The files of a run may be finished in any order. Their outcomes are put in the order of their paths
before anything is made of them, and since different paths are written differently, there is only one
such order. The table of messages grows while the records of new keys are taken in this order.

## Main results

* `merges_mergeExtracted` — an entry that is there is never touched, and of several records with one key
  the first one counts.
* `conclude_eq_of_perm` — whatever a run tells and writes does not depend on which file was finished first.
-/

namespace Phrasebook

open List Option Text

/-! ## The order of outcomes -/

lemma sortOutcomes_perm (outcomes : List FileOutcome) : (sortOutcomes outcomes).Perm outcomes :=
  sortStable_perm _ outcomes

/-- Outcomes are sorted by their paths. -/
lemma pairwise_sortOutcomes (outcomes : List FileOutcome) :
    (sortOutcomes outcomes).Pairwise fun o o' => o.path.text.ble o'.path.text = true :=
  pairwise_sortStable (fun o o' => Text.ble o.path.text o'.path.text) (fun _ _ => ble_total _ _)
    (fun _ _ _ => ble_trans) outcomes

section Order

variable {finished finished' : List FileOutcome}

/-- Outcomes with different paths are known by how their paths are written. -/
lemma FileOutcome.eq_of_text_eq (hproper : ∀ o ∈ finished, o.path.IsProper)
    (hdistinct : (finished.map FileOutcome.path).Nodup) {o o' : FileOutcome} (ho : o ∈ finished)
    (ho' : o' ∈ finished) (h : o.path.text = o'.path.text) : o = o' :=
  inj_on_of_nodup_map hdistinct ho ho' (Path.text_inj (hproper o ho) (hproper o' ho') h)

/-- **Outcomes with different paths have one order**, in whatever order they are given. -/
theorem sortOutcomes_eq_of_perm (hperm : finished.Perm finished')
    (hproper : ∀ o ∈ finished, o.path.IsProper) (hdistinct : (finished.map FileOutcome.path).Nodup) :
    sortOutcomes finished = sortOutcomes finished' := by
  have hsorted : (sortOutcomes finished).Perm (sortOutcomes finished') :=
    (sortOutcomes_perm finished).trans (hperm.trans (sortOutcomes_perm finished').symm)
  refine hsorted.eq_of_pairwise ?_ (pairwise_sortOutcomes finished) (pairwise_sortOutcomes finished')
  intro o o' ho ho' hle hge
  have hmem : o ∈ finished := (sortOutcomes_perm finished).mem_iff.mp ho
  have hmem' : o' ∈ finished := hperm.mem_iff.mpr ((sortOutcomes_perm finished').mem_iff.mp ho')
  exact FileOutcome.eq_of_text_eq hproper hdistinct hmem hmem' (ble_antisymm hle hge)

/-- No two of them have one path. -/
lemma pairwise_sortOutcomes_ne (hproper : ∀ o ∈ finished, o.path.IsProper)
    (hdistinct : (finished.map FileOutcome.path).Nodup) :
    (sortOutcomes finished).Pairwise fun o o' => o.path.text ≠ o'.path.text := by
  have hnodup : ((sortOutcomes finished).map FileOutcome.path).Nodup :=
    ((sortOutcomes_perm finished).map _).nodup_iff.mpr hdistinct
  refine (pairwise_map.mp hnodup).imp_of_mem fun {o o'} ho ho' hne heq => hne ?_
  have hmem := fun {x} => ((sortOutcomes_perm finished).mem_iff (a := x)).mp
  exact Path.text_inj (hproper o (hmem ho)) (hproper o' (hmem ho')) heq

end Order

/-! ## Adding messages to a table -/

/-- `Merges table records merge`: what becomes of a table when records are added to it, and how many are
added. -/
structure Merges (table : List (Text × Text)) (records : List Record)
    (merge : List (Text × Text) × Nat) : Prop where
  /-- The entries of the table stay in their places. -/
  table_prefix : table <+: merge.1
  kept : ∀ key text, table.lookup key = some text → merge.1.lookup key = some text
  /-- Any other key gets the text of its first record. -/
  first : ∀ key, table.lookup key = none →
    merge.1.lookup key = (records.find? fun r => r.key.text == key).map Record.value
  nodup : (table.map Prod.fst).Nodup → (merge.1.map Prod.fst).Nodup
  growth : merge.1.length = table.length + merge.2

/-- A key that a table does not have is not among its names. -/
lemma notMem_of_lookup_eq_none {table : List (Text × Text)} {key : Text}
    (h : table.lookup key = none) : key ∉ table.map Prod.fst := by
  intro hmem
  obtain ⟨pair, hpair, rfl⟩ := mem_map.mp hmem
  simpa using lookup_eq_none_iff.mp h pair hpair

section Adding

variable (r : Record) (merge : List (Text × Text) × Nat)

/-- What adding one record does: nothing, or a new entry at the end. -/
lemma addMessage_cases :
    ((merge.1.lookup r.key.text).isSome ∧ addMessage merge r = merge) ∨
      (merge.1.lookup r.key.text = none ∧
        addMessage merge r = (merge.1 ++ [(r.key.text, r.value)], merge.2 + 1)) := by
  rw [addMessage]
  split_ifs with h
  · exact .inl ⟨h, rfl⟩
  · exact .inr ⟨not_isSome_iff_eq_none.mp h, rfl⟩

/-- What a key stands for after a record has been added. -/
lemma lookup_addMessage (key : Text) :
    (addMessage merge r).1.lookup key =
      (merge.1.lookup key).or (if r.key.text == key then some r.value else none) := by
  rcases addMessage_cases r merge with ⟨hsome, heq⟩ | ⟨hnone, heq⟩
  · rw [heq]
    by_cases hkey : r.key.text = key
    · obtain ⟨text, htext⟩ := isSome_iff_exists.mp (hkey ▸ hsome)
      simp [htext]
    · simp [hkey]
  · rw [heq, lookup_append]
    by_cases hkey : r.key.text = key
    · simp [hkey]
    · simp [lookup_cons, hkey, beq_false_of_ne (Ne.symm hkey)]

end Adding

namespace Merges

variable {table : List (Text × Text)} {records : List Record} {merge : List (Text × Text) × Nat}

lemma nil (table : List (Text × Text)) : Merges table [] (table, 0) where
  table_prefix := prefix_refl table
  kept := fun _ _ h => h
  first := fun _ h => h
  nodup := id
  growth := rfl

/-- **One record more.** -/
theorem add (h : Merges table records merge) (r : Record) :
    Merges table (records ++ [r]) (addMessage merge r) where
  table_prefix := by
    rcases addMessage_cases r merge with ⟨-, heq⟩ | ⟨-, heq⟩
    · rw [heq]
      exact h.table_prefix
    · rw [heq]
      exact h.table_prefix.trans (prefix_append _ _)
  kept := by
    intro key text hkey
    rw [lookup_addMessage, h.kept key text hkey]
    rfl
  first := by
    intro key hkey
    rw [lookup_addMessage, h.first key hkey, List.find?_append, map_or]
    cases hr : r.key.text == key <;> simp [hr]
  nodup := by
    intro htable
    rcases addMessage_cases r merge with ⟨-, heq⟩ | ⟨hnone, heq⟩
    · rw [heq]
      exact h.nodup htable
    · rw [heq, map_append, nodup_append]
      refine ⟨h.nodup htable, nodup_singleton _, ?_⟩
      rintro key hkey key' hkey' rfl
      obtain rfl := mem_singleton.mp hkey'
      exact notMem_of_lookup_eq_none hnone hkey
  growth := by
    rcases addMessage_cases r merge with ⟨-, heq⟩ | ⟨-, heq⟩
    · rw [heq]
      exact h.growth
    · rw [heq, length_append, h.growth, length_singleton, Nat.add_assoc]

lemma foldl (h : Merges table records merge) (rest : List Record) :
    Merges table (records ++ rest) (rest.foldl addMessage merge) := by
  induction rest generalizing records merge with
  | nil => rwa [append_nil]
  | cons r rest ih => simpa using ih (h.add r)

end Merges

/-- **What adding the new messages to a table does.** -/
theorem merges_mergeExtracted (outcomes : List FileOutcome) (table : List (Text × Text)) :
    Merges table (newRecords outcomes) (mergeExtracted outcomes table) :=
  (Merges.nil table).foldl (newRecords outcomes)

/-! ## Files with problems -/

/-- Whether a file was read and converted without a problem. -/
def FileOutcome.isClean (o : FileOutcome) : Bool := o.outcome.any fun r => r.problem.isNone

/-- New keys are those of files without problems. -/
lemma newRecords_filter_isClean (outcomes : List FileOutcome) :
    newRecords (outcomes.filter FileOutcome.isClean) = newRecords outcomes := by
  induction outcomes with
  | nil => rfl
  | cons o rest ih =>
    simp only [newRecords, flatMap_cons] at ih ⊢
    by_cases hclean : o.isClean
    · rw [filter_cons_of_pos hclean, flatMap_cons, ih]
    · rw [filter_cons_of_neg hclean, ih]
      rw [FileOutcome.isClean] at hclean
      cases houtcome : o.outcome with
      | none => rfl
      | some r =>
        rw [houtcome, any_some] at hclean
        simp [hclean]

/-! ## Runs -/

/-- **A run does not depend on the order in which its files were finished.** For files with different
paths, the outcomes in order, the table of messages and how many were added to it, the changed files, the
report, the exit code and all that is told and written are the same. The outcomes stand in the order of
their paths, and the table has grown by the records of new keys in this order, those of files with problems
left out. -/
theorem conclude_eq_of_perm {finished finished' : List FileOutcome} (hperm : finished.Perm finished')
    (hproper : ∀ o ∈ finished, o.path.IsProper) (hdistinct : (finished.map FileOutcome.path).Nodup) :
    let outcomes := sortOutcomes finished
    let outcomes' := sortOutcomes finished'
    (outcomes = outcomes' ∧
      (∀ table, mergeExtracted outcomes table = mergeExtracted outcomes' table) ∧
      updatedFiles outcomes = updatedFiles outcomes' ∧
      (∀ scanned, reportOf scanned outcomes = reportOf scanned outcomes') ∧
      ∀ a : Arguments, a.exitCode outcomes = a.exitCode outcomes' ∧
        ∀ scanned, a.conclude scanned finished = a.conclude scanned finished') ∧
    (outcomes.Perm finished ∧ outcomes.Pairwise fun o o' =>
      o.path.text.ble o'.path.text = true ∧ o.path.text ≠ o'.path.text) ∧
    ∀ table, Merges table (newRecords outcomes) (mergeExtracted outcomes table) ∧
      mergeExtracted (outcomes.filter FileOutcome.isClean) table = mergeExtracted outcomes table := by
  intro outcomes outcomes'
  have hsame : outcomes = outcomes' := sortOutcomes_eq_of_perm hperm hproper hdistinct
  refine ⟨⟨hsame, ?_, ?_, ?_, fun a => ⟨?_, fun scanned => ?_⟩⟩, ⟨sortOutcomes_perm finished, ?_⟩,
    fun table => ⟨merges_mergeExtracted _ table, ?_⟩⟩
  · exact fun table => congrArg (mergeExtracted · table) hsame
  · exact congrArg updatedFiles hsame
  · exact fun scanned => congrArg (reportOf scanned) hsame
  · exact congrArg a.exitCode hsame
  · rw [Arguments.conclude, Arguments.conclude, show sortOutcomes finished = sortOutcomes finished' from hsame]
  · exact (pairwise_sortOutcomes finished).and (pairwise_sortOutcomes_ne hproper hdistinct)
  · rw [mergeExtracted, newRecords_filter_isClean, mergeExtracted]

/-- Two files give one key different texts, once as a number and once as a text, and a third one has a
problem. The text of the first path counts, whichever file was finished first. -/
theorem conclude_eq_of_perm_two_texts :
    let found (file : Text) (key : Key) (text : Text) (problem : Option Problem) : FileOutcome :=
      ⟨.ofText file, problem.isNone, "", some
        { code := [], extracted := [⟨key, text, file, 1, 0⟩], problem := problem }⟩
    let a := found "/a.js" (.number 1) "A" none
    let b := found "/b.js" (.name "1") "B" none
    let c := found "/A.js" (.name "1") "C" (some { cause := .unknownDialect "" })
    [b, c, a].Perm [a, b, c] ∧ (∀ o ∈ [b, c, a], o.path.IsProper) ∧
      ([b, c, a].map FileOutcome.path).Nodup ∧
      mergeExtracted (sortOutcomes [b, c, a]) [] = ([(("1" : Text), ("A" : Text))], 1) ∧
      ∀ args : Arguments, args.conclude 3 [b, c, a] = args.conclude 3 [a, b, c] := by
  intro found a b c
  have hperm : ([b, c] ++ [a]).Perm ([a] ++ [b, c]) := perm_append_comm
  have hproper : ∀ o ∈ [b, c, a], o.path.IsProper := by
    simp only [forall_mem_cons]
    exact ⟨Path.isProper_ofText _, Path.isProper_ofText _, Path.isProper_ofText _, forall_mem_nil _⟩
  have hdistinct : ([b, c, a].map FileOutcome.path).Nodup := by decide +kernel
  obtain ⟨⟨-, -, -, -, hrun⟩, -⟩ := conclude_eq_of_perm hperm hproper hdistinct
  exact ⟨hperm, hproper, hdistinct, by decide +kernel, fun args => (hrun args).2 3⟩

end Phrasebook
