import Phrasebook.Import.Plan
import Phrasebook.Proofs.Edit.Insertions
import Phrasebook.Proofs.Text.Blank
import Phrasebook.Tree.Supplied

/-!
# Accessors that are acquired

An accessor is acquired in its owner: at the beginning of the body of a function, or behind the imports
of the module. The statement is inserted unless a declaration among the statements there has a call of
the hook for its value. Such a declaration counts whatever it binds, so an owner that takes something
else from the hook does not get the accessor.

## Main results

* `hasAcquisition_iff` — which declarations count.
* `ensureImports_acquires` — what is in each owner after accessors have been acquired.
-/

namespace Phrasebook

open List Text

variable {a : Acquisition} {t : Text}

/-! ## Declarations that call a hook -/

/-- **A block that has an acquisition**: one of its statements declares a variable whose value, with
parentheses left out, is a call of the hook. -/
def Acquires (t : Text) (block : Node) (hook : Text) : Prop :=
  ∃ statement ∈ block.contents, statement.isDeclaration = true ∧
    ∃ declarator ∈ statement.namedChildren, declarator.kind = "variable_declarator" ∧
      ∃ value callee, (declarator.child? "value").bind Node.unwrap = some value ∧
        value.kind = "call_expression" ∧ value.child? "function" = some callee ∧ callee.text t = hook

/-- A declared variable that is the result of a call. -/
lemma Node.isCallOf_iff {hook : Text} {declarator : Node} :
    declarator.isCallOf t hook ↔ declarator.kind = "variable_declarator" ∧
      ∃ value callee, (declarator.child? "value").bind Node.unwrap = some value ∧
        value.kind = "call_expression" ∧ value.child? "function" = some callee ∧
          callee.text t = hook := by
  simp only [isCallOf, calls, Bool.and_eq_true, beq_iff_eq, Option.any_eq_true, contains_cons,
    contains_nil, Bool.or_false, exists_and_left]

/-- **When a block is found to have an acquisition.** -/
theorem hasAcquisition_iff {hook : Text} {block : Node} :
    hasAcquisition t block hook ↔ Acquires t block hook := by
  simp only [hasAcquisition, any_eq_true, mem_filter, Node.isCallOf_iff, Acquires, and_assoc]

/-! ## Insertions of a file -/

/-- **The insertions of a file in which all is in scope**, if anything is needed at all. -/
theorem ensureImports_eq_ok {parser : Parser} {dialect file out : Text} {imports : List ImportRequirement}
    {acquisitions : List Acquisition} (hneeded : (imports.isEmpty && acquisitions.isEmpty) = false)
    (h : ensureImports parser t imports acquisitions dialect file = .ok out) :
    ∃ root acquired, parse parser t dialect file = .ok root ∧
      (SourceFile.ofTree t root).planAcquisitions acquisitions = .ok acquired ∧
      applyInsertions t (insertionsOf ((SourceFile.ofTree t root).planImports imports ++ acquired)) =
        .ok out := by
  simp only [ensureImports, hneeded, Bool.false_eq_true, if_false] at h
  obtain ⟨root, hroot, h⟩ := exists_ok_of_bind h
  obtain ⟨acquired, hacquired, h⟩ := exists_ok_of_bind h
  exact ⟨root, acquired, hroot, eq_ok_of_mapError hacquired, eq_ok_of_mapError h⟩

/-- What is planned for a place is found there. -/
lemma insertedAt_of_planned {out : Text} {placements : List Placement}
    (h : applyInsertions t (insertionsOf placements) = .ok out) {p : Placement} (hp : p ∈ placements) :
    InsertedAt (insertionsOf placements) t out p.position p.text := by
  obtain ⟨i, hi, rfl⟩ := getElem_of_mem hp
  exact insertedAt_of_mem h (mem_mapIdx.mpr ⟨i, hi, rfl⟩)

namespace SourceFile

variable (f : SourceFile)

/-- What is planned for one of some accessors is planned. -/
lemma planAcquisition_of_mem {acquisitions : List Acquisition} {acquired : List Placement}
    (h : f.planAcquisitions acquisitions = .ok acquired) (ha : a ∈ acquisitions) :
    ∃ here, f.planAcquisition a = .ok here ∧ here ⊆ acquired := by
  induction acquisitions generalizing acquired with
  | nil => cases ha
  | cons b rest ih =>
    rw [planAcquisitions] at h
    obtain ⟨here, hhere, h⟩ := exists_ok_of_bind h
    obtain ⟨others, hothers, h⟩ := exists_ok_of_bind h
    obtain rfl := Except.ok.inj h
    rcases mem_cons.mp ha with rfl | hrest
    · exact ⟨here, hhere, subset_append_left here others⟩
    · obtain ⟨placed, hplaced, hsub⟩ := ih hothers hrest
      exact ⟨placed, hplaced, subset_append_of_subset_right here hsub⟩

/-- The name under which the hook of an accessor is known in a file. -/
def hook (a : Acquisition) : Text := localBinding f.imports a.hookSource a.hookName a.hookAlias

/-- What is planned for an accessor in a function: its owner begins at the offset. -/
lemma planAcquisition_some {offset : Int} {here : List Placement} (howner : a.ownerStart = some offset)
    (h : f.planAcquisition a = .ok here) :
    ∃ fn, f.functionAt? offset = some fn ∧ here = f.planFunction fn (a.statement (f.hook a)) (f.hook a) := by
  simp only [planAcquisition, howner] at h
  split at h
  · rename_i fn hfn
    exact ⟨fn, hfn, (Except.ok.inj h).symm⟩
  · cases h

/-- What is inserted at the beginning of a block is the statement between white space. -/
lemma openBlock_eq {newline base inner : Text} (hnewline : newline.IsBlank) (hbase : base.IsBlank)
    (hinner : inner.IsBlank) (t statement : Text) (body : Node) :
    ∃ pre post : Text, pre.IsBlank ∧ post.IsBlank ∧
      openBlock t newline base inner statement body = pre ++ statement ++ post := by
  rw [openBlock]
  split
  · refine ⟨_, [], hnewline.append ?_, isBlank_nil, (append_nil _).symm⟩
    split_ifs
    · exact hinner
    · exact t.isBlank_lineIndent _
  · refine ⟨_, _, hnewline.append hinner, ?_, rfl⟩
    split_ifs
    · exact isBlank_nil
    · exact hnewline.append hbase

/-- **What is inserted in a function.** A block gets the statement behind its brace, unless it has an
acquisition already; an expression turns into a block with the statement and the expression. -/
theorem planFunction_cases (fn : Node) (statement hook : Text) {body : Node}
    (hbody : fn.child? "body" = some body) :
    if body.kind = "statement_block" then
      (Acquires f.text body hook ∧ f.planFunction fn statement hook = []) ∨
        (¬ Acquires f.text body hook ∧ ∃ pre post : Text, pre.IsBlank ∧ post.IsBlank ∧
          f.planFunction fn statement hook = [⟨body.start + 1, pre ++ statement ++ post, false⟩])
    else
      ∃ pre post last : Text, pre.IsBlank ∧ post.IsBlank ∧ last.IsBlank ∧
        f.planFunction fn statement hook =
          [⟨body.start, "\x7b" ++ (pre ++ statement ++ post) ++ "return ", false⟩,
            ⟨body.stop, ";" ++ last ++ "\x7d", false⟩] := by
  have hnewline := f.text.isBlank_newline
  have hbase := f.text.isBlank_lineIndent fn.start
  simp only [planFunction, hbody]
  generalize hinner : f.text.lineIndent fn.start ++ (if (f.text.lineIndent fn.start).any
    (fun (c : CodePoint) => c == '\t') then ("\t" : Text) else "  ") = inner
  have hinner : inner.IsBlank := by
    rw [← hinner]
    refine hbase.append ?_
    split_ifs <;> rw [Text.IsBlank] <;> decide
  by_cases hkind : body.kind = "statement_block"
  · simp only [hkind, bne_self_eq_false, Bool.false_eq_true, if_false, if_true]
    by_cases hhas : hasAcquisition f.text body hook
    · exact .inl ⟨hasAcquisition_iff.mp hhas, if_pos hhas⟩
    · obtain ⟨pre, post, hpre, hpost, htext⟩ :=
        openBlock_eq hnewline hbase hinner f.text statement body
      exact .inr ⟨fun hacquires => hhas (hasAcquisition_iff.mpr hacquires), pre, post, hpre, hpost,
        by rw [if_neg hhas, htext]⟩
  · have hbne : (body.kind != "statement_block") := by simpa using hkind
    simp only [hbne, hkind, if_true, if_false]
    refine ⟨f.text.newline ++ inner, f.text.newline ++ inner, _, hnewline.append hinner,
      hnewline.append hinner, hnewline.append hbase, ?_⟩
    simp [openExpression]

/-- A statement behind the opening of a file: only white space comes between. -/
lemma atTop_eq (statement : Text) (behindImports : Bool) :
    leadingEnd f.root ≤ (f.atTop statement behindImports).position ∧
      Text.IsBlank (f.text.slice (leadingEnd f.root) (f.atTop statement behindImports).position) ∧
      ∃ pre post : Text, pre.IsBlank ∧ post.IsBlank ∧
        (f.atTop statement behindImports).text = pre ++ statement ++ post := by
  have hnewline := f.text.isBlank_newline
  rw [atTop]
  split_ifs with hopening hline
  · refine ⟨le_rfl, by simp [Text.slice, Text.IsBlank], _, [], hnewline, isBlank_nil,
      (append_nil _).symm⟩
  · have hfirst := prefix_iff_eq_take.mp (List.isPrefixOf_iff_prefix.mp hline)
    refine ⟨by omega, ?_, [], _, isBlank_nil, hnewline, rfl⟩
    rw [show leadingEnd f.root = 0 by omega, Text.slice, drop_zero, ← hfirst]
    exact hnewline
  · refine ⟨by omega, by simp [Text.slice, Text.IsBlank], [], _, isBlank_nil, hnewline, rfl⟩

/-- **What a file does about an accessor in a block.** If the block has an acquisition, nothing is
planned; otherwise the statement that acquires the accessor has been inserted at a place, between white
space. -/
def Provided (planned : List Insertion) (out : Text) (a : Acquisition) (block : Node) (place : Nat) : Prop :=
  (Acquires f.text block (f.hook a) ∧ f.planAcquisition a = .ok []) ∨
    (¬ Acquires f.text block (f.hook a) ∧ ∃ pre post : Text, pre.IsBlank ∧ post.IsBlank ∧
      InsertedAt planned f.text out place (pre ++ a.statement (f.hook a) ++ post))

/-- What is planned for an accessor of the module. -/
lemma planAcquisition_none (howner : a.ownerStart = none) :
    (Acquires f.text f.root (f.hook a) ∧ f.planAcquisition a = .ok []) ∨
      (¬ Acquires f.text f.root (f.hook a) ∧
        f.planAcquisition a = .ok [f.atTop (a.statement (f.hook a)) true]) := by
  simp only [planAcquisition, howner, ← hasAcquisition_iff]
  by_cases hhas : hasAcquisition f.text f.root (f.hook a)
  · exact .inl ⟨hhas, congrArg Except.ok (if_pos hhas)⟩
  · exact .inr ⟨hhas, congrArg Except.ok (if_neg hhas)⟩

end SourceFile

/-! ## Accessors in scope -/

/-- **Every accessor is acquired in its owner**, unless its hook is called there. In the module or in a
block, a declaration whose value is a call of the hook counts as an acquisition, whatever it binds, and
nothing is inserted then; otherwise the statement that binds the accessor is inserted, behind the opening
of the file or behind the brace of the block. An expression is wrapped into a block that begins with the
statement. Nothing else is inserted but what is planned for the imports and for the other accessors. -/
theorem ensureImports_acquires {parser : Parser} {t dialect file out : Text}
    {imports : List ImportRequirement} {acquisitions : List Acquisition}
    (h : ensureImports parser t imports acquisitions dialect file = .ok out) {a : Acquisition}
    (ha : a ∈ acquisitions) :
    ∃ root acquired, parse parser t dialect file = .ok root ∧
      let f := SourceFile.ofTree t root
      let planned := insertionsOf (f.planImports imports ++ acquired)
      f.planAcquisitions acquisitions = .ok acquired ∧
      match a.ownerStart with
      | none => ∃ place, leadingEnd root ≤ place ∧ Text.IsBlank (t.slice (leadingEnd root) place) ∧
          f.Provided planned out a root place
      | some offset => ∃ fn, f.functionAt? offset = some fn ∧ ∀ body, fn.child? "body" = some body →
          if body.kind = "statement_block" then f.Provided planned out a body (body.start + 1)
          else ∃ pre post last : Text, pre.IsBlank ∧ post.IsBlank ∧ last.IsBlank ∧
            InsertedAt planned t out body.start
              ("\x7b" ++ (pre ++ a.statement (f.hook a) ++ post) ++ "return ") ∧
            InsertedAt planned t out body.stop (";" ++ last ++ "\x7d") := by
  have hneeded : (imports.isEmpty && acquisitions.isEmpty) = false := by
    rw [Bool.and_eq_false_iff]
    exact .inr (by simpa using ne_nil_of_mem ha)
  obtain ⟨root, acquired, hroot, hacquired, hout⟩ := ensureImports_eq_ok hneeded h
  refine ⟨root, acquired, hroot, hacquired, ?_⟩
  set f := SourceFile.ofTree t root
  obtain ⟨here, hhere, hsub⟩ := f.planAcquisition_of_mem hacquired ha
  have hplaced : ∀ p ∈ here, InsertedAt (insertionsOf (f.planImports imports ++ acquired)) t out
      p.position p.text := fun p hp =>
    insertedAt_of_planned hout (mem_append_right _ (hsub hp))
  cases howner : a.ownerStart with
  | none =>
    obtain ⟨hle, hblank, pre, post, hpre, hpost, htext⟩ := f.atTop_eq (a.statement (f.hook a)) true
    refine ⟨_, hle, hblank, ?_⟩
    rcases f.planAcquisition_none howner with hhas | ⟨hnot, hplan⟩
    · exact .inl hhas
    · obtain rfl := Except.ok.inj (hplan.symm.trans hhere)
      exact .inr ⟨hnot, pre, post, hpre, hpost, htext ▸ hplaced _ mem_cons_self⟩
  | some offset =>
    obtain ⟨fn, hfn, rfl⟩ := f.planAcquisition_some howner hhere
    refine ⟨fn, hfn, fun body hbody => ?_⟩
    have hcases := f.planFunction_cases fn (a.statement (f.hook a)) (f.hook a) hbody
    split_ifs at hcases ⊢ with hkind
    · rcases hcases with ⟨hhas, hnil⟩ | ⟨hnot, pre, post, hpre, hpost, hplan⟩
      · exact .inl ⟨hhas, hnil ▸ hhere⟩
      · rw [hplan] at hplaced
        exact .inr ⟨hnot, pre, post, hpre, hpost, hplaced _ mem_cons_self⟩
    · obtain ⟨pre, post, last, hpre, hpost, hlast, hplan⟩ := hcases
      rw [hplan] at hplaced
      exact ⟨pre, post, last, hpre, hpost, hlast, hplaced _ mem_cons_self,
        hplaced _ (mem_cons_of_mem _ mem_cons_self)⟩

/-! ## A declaration that binds something else -/

/-- What the declarations among the statements of a block bind, as it is written. -/
def Node.boundPatterns (t : Text) (block : Node) : List Text :=
  (block.contents.filter isDeclaration).flatMap fun statement =>
    statement.namedChildren.filterMap fun declarator =>
      (declarator.child? "name").map fun target => target.text t

/-- A function that takes something else than the accessor from the hook. -/
def languageSwitch : Text := "function A() \x7b\n  const \x7b i18n \x7d = useTranslation();\n\x7d\n"

/-- The tree of that function. -/
def languageSwitchTree : Node :=
  .mk { kind := "program", start := 0, stop := 54 } [
    .mk { kind := "function_declaration", start := 0, stop := 53 } [
      .mk { kind := "identifier", start := 9, stop := 10, field := some "name" } [],
      .mk { kind := "statement_block", start := 13, stop := 53, field := some "body" } [
        .mk { kind := "lexical_declaration", start := 17, stop := 51 } [
          .mk { kind := "variable_declarator", start := 23, stop := 50 } [
            .mk { kind := "object_pattern", start := 23, stop := 31, field := some "name" } [],
            .mk { kind := "call_expression", start := 34, stop := 50, field := some "value" } [
              .mk { kind := "identifier", start := 34, stop := 48, field := some "function" } []]]]]]]

/-- The parser that knows this function. -/
def languageSwitchParser : Parser :=
  .ofSupplied [⟨.javascript, languageSwitch, ⟨languageSwitchTree, false⟩⟩]

/-- **A call of the hook is enough.** The function gets no statement for the accessor `t`, although its
only declaration binds something else. -/
theorem ensureImports_keeps_other_binding :
    ensureImports languageSwitchParser languageSwitch []
        [⟨some 0, "t", "react-i18next", "useTranslation", none, true⟩] "javascript" "f.js" =
      .ok languageSwitch ∧
    (((SourceFile.ofTree languageSwitch languageSwitchTree).functionAt? 0).bind fun fn =>
      fn.child? "body").map (Node.boundPatterns languageSwitch) = some [("\x7b i18n \x7d" : Text)] := by
  refine ⟨?_, by decide +kernel⟩
  have hsame : (ensureImports languageSwitchParser languageSwitch []
      [⟨some 0, "t", "react-i18next", "useTranslation", none, true⟩] "javascript"
        "f.js").toOption.any (· == languageSwitch) = true := by decide +kernel
  obtain ⟨out, hout, heq⟩ := exists_ok_of_any hsame
  rw [hout, eq_of_beq heq]

/-- A function that calls another hook gets the statement behind its brace. -/
theorem ensureImports_acquires_other_hook :
    let a : Acquisition := ⟨some 0, "t", "react-i18next", "useT", none, true⟩
    let expected : Text := "function A() \x7b\n  const \x7b t \x7d = useT();\n"
      ++ "  const \x7b i18n \x7d = useTranslation();\n\x7d\n"
    ∃ out, ensureImports languageSwitchParser languageSwitch [] [a] "javascript" "f.js" = .ok out ∧
      out = expected ∧ a ∈ [a] ∧
      ∃ root acquired, parse languageSwitchParser languageSwitch "javascript" "f.js" = .ok root ∧
        let f := SourceFile.ofTree languageSwitch root
        let planned := insertionsOf (f.planImports [] ++ acquired)
        f.planAcquisitions [a] = .ok acquired ∧
        ∃ fn, f.functionAt? 0 = some fn ∧ ∀ body, fn.child? "body" = some body →
          if body.kind = "statement_block" then f.Provided planned out a body (body.start + 1)
          else ∃ pre post last : Text, pre.IsBlank ∧ post.IsBlank ∧ last.IsBlank ∧
            InsertedAt planned languageSwitch out body.start
              ("\x7b" ++ (pre ++ a.statement (f.hook a) ++ post) ++ "return ") ∧
            InsertedAt planned languageSwitch out body.stop (";" ++ last ++ "\x7d") := by
  intro a expected
  have hinserted : (ensureImports languageSwitchParser languageSwitch [] [a] "javascript"
      "f.js").toOption.any (· == expected) = true := by decide +kernel
  obtain ⟨out, hout, heq⟩ := exists_ok_of_any hinserted
  exact ⟨out, hout, eq_of_beq heq, mem_cons_self, ensureImports_acquires hout mem_cons_self⟩

end Phrasebook
