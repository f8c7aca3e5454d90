import Phrasebook.Proofs.Assoc
import Phrasebook.Proofs.Component.Resplit
import Phrasebook.Proofs.Conversion.Placement

/-!
# The blocks of a converted component

A conversion gives new contents to some blocks of a component: to its template, and to scripts. All
else in the file stays: the tags of the blocks, the text between them, and the other contents. A lookup
inside of a template can spell out a closing tag that was written with escapes before, and such a
content ends too early.

## Main results

* `convertFile_keeps_blocks_iff` — whether the file still consists of the same blocks is a question to the
  new contents alone.
-/

namespace Phrasebook

open List

variable {b : Block} {blocks : List Block} {code : Text} {index : Nat}

/-! ## Blocks and their new contents -/

namespace ComponentPlan

variable (p : ComponentPlan) (contents : List (Nat × Text))

/-- The blocks and the contents that they have afterwards: a new one, or what they had. -/
def assigned : List (Block × Text) :=
  p.indexed.map fun (index, b) => (b, (contents.lookup index).getD b.content)

lemma map_fst_assigned : (p.assigned contents).map Prod.fst = p.blocks := by
  rw [assigned, map_map]
  exact p.map_snd_indexed

lemma mem_indexed : (index, b) ∈ p.indexed ↔ p.blocks[index]? = some b := by
  rw [indexed, mem_mapIdx, List.getElem?_eq_some_iff]
  simp only [Prod.mk.injEq]
  constructor
  · rintro ⟨i, hi, rfl, rfl⟩
    exact ⟨hi, rfl⟩
  · rintro ⟨hi, rfl⟩
    exact ⟨index, hi, rfl, rfl⟩

/-- A new content is assigned to the block with its index. -/
lemma mem_assigned (hnodup : (contents.map Prod.fst).Nodup) {content : Text}
    (hmem : (index, content) ∈ contents) (hb : p.blocks[index]? = some b) :
    (b, content) ∈ p.assigned contents :=
  mem_map.mpr ⟨(index, b), p.mem_indexed.mpr hb, by simp [lookup_of_mem hnodup hmem]⟩

/-- A block has a new content or its old one. -/
lemma of_mem_assigned {entry : Block × Text} (h : entry ∈ p.assigned contents) :
    (∃ index, (index, entry.2) ∈ contents ∧ p.blocks[index]? = some entry.1) ∨
      entry.2 = entry.1.content := by
  obtain ⟨⟨index, b⟩, hb, rfl⟩ := mem_map.mp h
  rw [p.mem_indexed] at hb
  cases hlookup : contents.lookup index with
  | none => exact .inr (by simp [hlookup])
  | some content => exact .inl ⟨index, by simpa [hlookup] using mem_of_lookup hlookup, hb⟩

/-- **The file in which the new contents stand**: the tags of the blocks and the text between them are
those of the file before. -/
theorem assemble_eq (hsplit : splitBlocks p.code = .ok p.blocks) (hnodup : (contents.map Prod.fst).Nodup) :
    Workbench.assemble p contents = spliceFrom p.code 0 ((p.assigned contents).map Block.fill) := by
  have hblocks : p.blocks.Nodup :=
    (pairwise_start_lt hsplit).imp fun hlt heq => absurd hlt (by simp [heq])
  have hmem : ∀ entry : Block × Text, entry ∈ (contents.filterMap fun e =>
      p.blocks[e.1]?.map fun b => (b, e.2)) ↔
        ∃ index, (index, entry.2) ∈ contents ∧ p.blocks[index]? = some entry.1 := by
    rintro ⟨b, content⟩
    simp only [mem_filterMap, Option.map_eq_some_iff, Prod.mk.injEq, Prod.exists]
    constructor
    · rintro ⟨index, _, hcontent, _, hb, rfl, rfl⟩
      exact ⟨index, hcontent, hb⟩
    · rintro ⟨index, hcontent, hb⟩
      exact ⟨index, content, hcontent, b, hb, rfl, rfl⟩
  refine replaceContents_eq hsplit (p.map_fst_assigned contents) ?_ ?_ ?_
  · -- Two new contents of one block would have the same index.
    refine hnodup.of_map.filterMap ?_
    rintro ⟨i, c⟩ ⟨j, d⟩ ⟨b, content⟩ hi hj
    simp only [Option.mem_def, Option.map_eq_some_iff, Prod.mk.injEq] at hi hj
    obtain ⟨_, hbi, rfl, rfl⟩ := hi
    obtain ⟨_, hbj, rfl, rfl⟩ := hj
    obtain rfl : i = j :=
      (getElem?_inj (List.getElem?_eq_some_iff.mp hbi).1 hblocks).mp (hbi.trans hbj.symm)
    rfl
  · intro entry hentry
    obtain ⟨index, hcontent, hb⟩ := (hmem entry).mp hentry
    exact p.mem_assigned contents hnodup hcontent hb
  · intro entry hentry hnew
    exact (p.of_mem_assigned contents hentry).resolve_left fun hold => hnew ((hmem entry).mpr hold)

/-- The indices of blocks increase. -/
lemma pairwise_fst_indexed : (p.indexed.map Prod.fst).Pairwise (· < ·) := by
  have hrange : p.indexed.map Prod.fst = List.range p.blocks.length := by
    refine ext_getElem? fun i => ?_
    by_cases hi : i < p.blocks.length <;> simp [indexed, hi]
  rw [hrange]
  exact pairwise_lt_range

end ComponentPlan

/-! ## The new contents of a component -/

namespace Workbench

variable (w : Workbench) {l l' : Ledger}

/-- New contents of scripts have the indices of scripts, in order. -/
lemma sublist_of_convertScripts {p : ComponentPlan} {templateUsed : Bool} {scripts : List (Nat × Block)}
    {progress : Progress} (h : Runs (w.convertScripts p templateUsed scripts) l progress l') :
    (progress.contents.map Prod.fst).Sublist (scripts.map Prod.fst) := by
  induction scripts generalizing l progress with
  | nil =>
    obtain ⟨rfl, -⟩ := runs_pure.mp h
    exact List.Sublist.refl _
  | cons script rest ih =>
    obtain ⟨index, b⟩ := script
    obtain ⟨dialect, output, changes, others, m, -, hothers, rfl⟩ := w.runs_convertScripts_cons h
    have hrest := ih hothers
    by_cases hsame : output == b.content
    · simpa [hsame] using hrest.cons index
    · simpa [hsame] using hrest.cons_cons index

/-- **The new contents that a conversion comes to**: of the template, and of scripts. -/
def Assigns (code : Text) (l : Ledger) (blocks : List Block) (contents : List (Nat × Text)) : Prop :=
  splitBlocks code = .ok blocks ∧
    let plan := ComponentPlan.make w.options code blocks
    ∃ template scripts middle books,
      Runs (w.convertTemplate plan) l template middle ∧
      Runs (w.convertScripts plan (!template.changes.isEmpty) plan.scripts) middle scripts books ∧
      contents = template.contents ++ scripts.contents

variable {w} {code : Text} {blocks : List Block} {contents : List (Nat × Text)}

/-- **No block gets two contents**: the template is no script, and no script is converted twice. -/
theorem Assigns.nodup_indices (h : w.Assigns code l blocks contents) :
    (contents.map Prod.fst).Nodup := by
  obtain ⟨-, template, scripts, middle, books, htemplate, hscripts, rfl⟩ := h
  set p := ComponentPlan.make w.options code blocks
  have hsub := w.sublist_of_convertScripts hscripts
  have hscriptsub : (p.scripts.map Prod.fst).Sublist (p.indexed.map Prod.fst) :=
    filter_sublist.map Prod.fst
  have hnodup : (scripts.contents.map Prod.fst).Nodup :=
    (p.pairwise_fst_indexed.sublist (hsub.trans hscriptsub)).imp fun hlt => hlt.ne
  rw [map_append]
  rcases w.runs_convertTemplate htemplate with
    ⟨rfl, -⟩ | ⟨index, b, e, splices, output, hfound, -, -, -, rfl⟩
  · exact hnodup
  · refine nodup_cons.mpr ⟨fun hmem => ?_, hnodup⟩
    obtain ⟨⟨_, script⟩, hscript, rfl⟩ := mem_map.mp (hsub.subset hmem)
    have hname := p.name_of_mem_scripts hscript
    have hb := p.mem_indexed.mp (mem_of_find?_eq_some hfound)
    obtain rfl : script = b :=
      Option.some.inj ((p.mem_indexed.mp (mem_filter.mp hscript).1).symm.trans hb)
    exact absurd ((p.mem_of_template? hfound).2.symm.trans hname) (by decide)

end Workbench

/-! ## Files and their blocks -/

/-- **A file that consists of blocks with given contents**: it can be split, and the blocks have the
names and the attributes of the given ones, in their order, and the given contents. -/
def ConsistsOf (code : Text) (entries : List (Block × Text)) : Prop :=
  ∃ found, splitBlocks code = .ok found ∧ found.map Block.parts = entries.map Block.newParts

/-- The contents of a file stay inside of their blocks. -/
lemma staysInside_of_splitBlocks
    (h : splitBlocks code = .ok blocks) (hb : b ∈ blocks) : StaysInside b.name b.content := by
  obtain ⟨hmem, hpair⟩ := splitBlocks_spec h
  have hsame : spliceFrom code 0 ((blocks.map fun b => (b, b.content)).map Block.fill) = code := by
    rw [← spliceFrom_filter (f := fun _ => false)]
    · simp [spliceFrom]
    · simpa using hmem
    · simpa [pairwise_map] using hpair
    · simp
  have hfst : (blocks.map fun b => (b, b.content)).map Prod.fst = blocks := by simp [Function.comp_def]
  have hiff := (splits_of_splitBlocksFrom h).resplit_iff (show code.drop 0 = code from rfl) hfst 0
  rw [hsame] at hiff
  exact hiff.mp ⟨blocks, h, by simp [Block.parts, Block.newParts, Function.comp_def]⟩ (b, b.content)
    (mem_map_of_mem hb)

/-- A component consists of its blocks with the new contents just if these stay inside. -/
lemma Workbench.Assigns.consistsOf_iff {w : Workbench} {l : Ledger}
    {contents : List (Nat × Text)} (h : w.Assigns code l blocks contents) :
    let plan := ComponentPlan.make w.options code blocks
    ConsistsOf (assemble plan contents) (plan.assigned contents) ↔
      ∀ entry ∈ contents, ∀ b, blocks[entry.1]? = some b → StaysInside b.name entry.2 := by
  intro plan
  have hnodup := h.nodup_indices
  have hiff := (splits_of_splitBlocksFrom h.1).resplit_iff (show code.drop 0 = code from rfl)
    (plan.map_fst_assigned contents) 0
  rw [ConsistsOf, splitBlocks, plan.assemble_eq contents h.1 hnodup]
  refine hiff.trans ⟨?_, ?_⟩
  · intro hall entry hentry b hb
    exact hall (b, entry.2) (plan.mem_assigned contents hnodup hentry hb)
  · intro hall entry hentry
    rcases plan.of_mem_assigned contents hentry with ⟨index, hcontent, hb⟩ | hsame
    · exact hall (index, entry.2) hcontent entry.1 hb
    · have hblock : entry.1 ∈ plan.blocks := plan.map_fst_assigned contents ▸ mem_map_of_mem hentry
      exact hsame ▸ staysInside_of_splitBlocks h.1 hblock

/-- **When a converted component still consists of its blocks.** A conversion without a problem keeps
all that stands outside of the contents. The result is split into blocks with the same names and the
same attributes in the same order, and each content is the one that its block was given, just if all new
contents stay inside of their blocks.

**Proof sketch.** The result is the file with the new contents in their places, also if there are none.
What the splitter reads outside of contents is the same as before, and contents that are not new stay
inside of their blocks since they did before. -/
theorem convertFile_keeps_blocks_iff {parser : Parser} {code file : Text} {options : Options}
    {catalogue : Catalogue} {earlier requests : List KeyRequest} {o : Outcome}
    (hfile : isComponentFile file = true)
    (h : convertFile parser code file options catalogue none earlier = .ok (o, requests))
    (hok : o.problem = none) :
    ∃ normal warnings blocks contents,
      options.forComponent.normalize = .ok (normal, warnings) ∧
      Workbench.Assigns ⟨parser, file, normal, catalogue⟩ code { requests := earlier } blocks contents ∧
      let entries := (ComponentPlan.make normal code blocks).assigned contents
      o.code = spliceFrom code 0 (entries.map Block.fill) ∧
      (ConsistsOf o.code entries ↔
        ∀ entry ∈ contents, ∀ b, blocks[entry.1]? = some b → StaysInside b.name entry.2) := by
  obtain ⟨normal, warnings, hnormal, rfl⟩ := convertFile_component_eq_ok hfile h
  set w : Workbench := ⟨parser, file, normal, catalogue⟩
  obtain ⟨result, books, hrun, hcode⟩ := conclude_of_no_problem hok
  obtain ⟨blocks, template, scripts, middle, hsplit, htemplate, hscripts, hresult⟩ :=
    w.runs_convertComponent_result hrun
  have hassigns : w.Assigns code { requests := earlier } blocks (template.contents ++ scripts.contents) :=
    ⟨hsplit, template, scripts, middle, books, htemplate, hscripts, rfl⟩
  have hassemble : (result.map Prod.fst).getD code =
      Workbench.assemble (ComponentPlan.make normal code blocks)
        (template.contents ++ scripts.contents) := by
    rw [hresult]
    split_ifs with hnil
    · rw [List.isEmpty_iff.mp hnil]
      rfl
    · rfl
  refine ⟨normal, warnings, blocks, _, hnormal, hassigns, ?_⟩
  rw [hcode, hassemble]
  exact ⟨ComponentPlan.assemble_eq _ _ hsplit hassigns.nodup_indices, hassigns.consistsOf_iff⟩

/-- A closing tag that is written with an escape in a template is spelled out in the key of a lookup: the
converted template ends too early. -/
theorem convertFile_keeps_blocks_iff_escape :
    let code : Text := "<template><p :a=\"'___\\x3c/template>___'\"></p></template>"
    ∃ o requests, isComponentFile "f.vue" = true ∧
      convertFile (Parser.ofSupplied []) code "f.vue" {} [] none [] = .ok (o, requests) ∧
      o.problem = none ∧
      splitBlocks o.code = .ok [⟨"template", [], 10, 21, "<p :a=\"$t('"⟩] ∧
      ∃ normal warnings blocks contents,
        Options.normalize (Options.forComponent {}) = .ok (normal, warnings) ∧
        Workbench.Assigns ⟨Parser.ofSupplied [], "f.vue", normal, []⟩ code {} blocks contents ∧
        let entries := (ComponentPlan.make normal code blocks).assigned contents
        o.code = spliceFrom code 0 (entries.map Block.fill) ∧
        (ConsistsOf o.code entries ↔
          ∀ entry ∈ contents, ∀ b, blocks[entry.1]? = some b → StaysInside b.name entry.2) := by
  intro code
  have hfile : isComponentFile "f.vue" = true := by decide +kernel
  have hconverted : (convertFile (Parser.ofSupplied []) code "f.vue" {} [] none []).toOption.any
      (fun result => result.1.problem.isNone &&
        (splitBlocks result.1.code).toOption == some [⟨"template", [], 10, 21, "<p :a=\"$t('"⟩]) = true := by
    decide +kernel
  obtain ⟨⟨o, requests⟩, hok, hresult⟩ := exists_ok_of_any hconverted
  obtain ⟨hproblem, hsplit⟩ := Bool.and_eq_true_iff.mp hresult
  have hnone : o.problem = none := by simpa using hproblem
  refine ⟨o, requests, hfile, hok, hnone, ?_, convertFile_keeps_blocks_iff hfile hok hnone⟩
  rw [beq_iff_eq] at hsplit
  cases hfound : splitBlocks o.code with
  | error failure =>
    rw [hfound] at hsplit
    cases hsplit
  | ok found =>
    rw [hfound] at hsplit
    exact congrArg Except.ok (Option.some.inj hsplit)

end Phrasebook
