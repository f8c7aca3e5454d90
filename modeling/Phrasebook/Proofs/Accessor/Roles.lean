import Mathlib.Tactic.SplitIfs
import Phrasebook.Accessor.Classify
import Phrasebook.Proofs.Assoc
import Phrasebook.Proofs.Tree.Ancestors

/-!
# Roles of code, with and without remembering them

A surveyor looks at the functions around a piece of code from the inside out, and remembers what it
finds about each of them. Here the role of a piece of code is defined with nothing remembered: it is
that of the nearest function around it that is a component or a hook by itself. What is remembered is
right as long as functions can be told apart by their spans and kinds.

## Main results

* `Surveyor.classifyAll_nearest_role` — a surveyor gives these roles, in whatever order it is asked.
* `Surveyor.classify_owner_in_method_iff` — the function that gives a role is no method of a class, but
  it may stand in one.
-/

namespace Phrasebook

open List

variable {ancestors outer : List Node} {fn : Node} {c : Cursor}

/-! ## The functions around a piece of code -/

/-- The functions among some ancestors, the nearest first, each with what it stands in. -/
def functionsAround : List Node → List (Node × List Node)
  | [] => []
  | n :: outer => if n.isFunction then (n, outer) :: functionsAround outer else functionsAround outer

/-- The functions around a piece of code are those among its ancestors. -/
lemma mem_functionsAround :
    (fn, outer) ∈ functionsAround ancestors ↔ fn.isFunction ∧ (fn :: outer) <:+ ancestors := by
  induction ancestors with
  | nil => simp [functionsAround]
  | cons n rest ih =>
    rw [functionsAround, suffix_cons_iff, List.cons.injEq]
    by_cases hn : n.isFunction
    · rw [if_pos hn, mem_cons, ih, Prod.mk.injEq]
      constructor
      · rintro (⟨rfl, rfl⟩ | ⟨hfn, hsuffix⟩)
        · exact ⟨hn, .inl ⟨rfl, rfl⟩⟩
        · exact ⟨hfn, .inr hsuffix⟩
      · rintro ⟨hfn, ⟨rfl, rfl⟩ | hsuffix⟩
        · exact .inl ⟨rfl, rfl⟩
        · exact .inr ⟨hfn, hsuffix⟩
    · rw [if_neg hn, ih]
      constructor
      · rintro ⟨hfn, hsuffix⟩
        exact ⟨hfn, .inr hsuffix⟩
      · rintro ⟨hfn, ⟨rfl, -⟩ | hsuffix⟩
        · exact absurd hfn hn
        · exact ⟨hfn, hsuffix⟩

/-- Of two functions around a piece of code, the nearer one stands in the other. -/
lemma pairwise_functionsAround (ancestors : List Node) :
    (functionsAround ancestors).Pairwise fun x y => (y.1 :: y.2) <:+ x.2 := by
  induction ancestors with
  | nil => exact List.Pairwise.nil
  | cons n outer ih =>
    rw [functionsAround]
    split_ifs
    · exact pairwise_cons.mpr ⟨fun y hy => (mem_functionsAround.mp hy).2, ih⟩
    · exact ih

namespace Surveyor

variable (s : Surveyor)

/-! ## Roles by definition -/

/-- What the functions around a piece of code are by themselves, the nearest first. -/
def ownRoles (ancestors : List Node) : List Classification :=
  (functionsAround ancestors).map fun x => s.classifySelf x.1 x.2

/-- **The role of a piece of code** is that of the nearest function around it that is a component or a
hook by itself. If there is none, it is that of the module, unless this is plain and there is a
function: then it is that of the nearest function. -/
def role (ancestors : List Node) : Classification :=
  match (s.ownRoles ancestors).find? fun own => own.scope ≠ .plain, (s.ownRoles ancestors).head? with
  | some own, _ => own
  | none, some nearest => if s.moduleScope = .plain then nearest else { scope := s.moduleScope }
  | none, none => { scope := s.moduleScope }

/-- A node that is no function has no say. -/
lemma role_of_not_isFunction {n : Node} (hn : ¬ n.isFunction) (outer : List Node) :
    s.role (n :: outer) = s.role outer := by
  simp only [role, ownRoles, functionsAround, if_neg hn]

/-- A function with a role of its own decides. -/
lemma role_of_own (hfn : fn.isFunction) (hown : (s.classifySelf fn outer).scope ≠ .plain) :
    s.role (fn :: outer) = s.classifySelf fn outer := by
  simp only [role, ownRoles, functionsAround, if_pos hfn, map_cons]
  rw [List.find?_cons_of_pos (by simpa using hown)]

/-- A function that is plain by itself has the role of what it stands in, unless that is plain too. -/
lemma role_of_plain (hfn : fn.isFunction) (hown : (s.classifySelf fn outer).scope = .plain) :
    s.role (fn :: outer) = orOuter (s.classifySelf fn outer) (s.role outer) := by
  simp only [role, ownRoles, functionsAround, if_pos hfn, map_cons, head?_cons]
  rw [List.find?_cons_of_neg (by simpa using hown)]
  cases hfind : ((functionsAround outer).map fun x => s.classifySelf x.1 x.2).find?
      fun own => own.scope ≠ .plain with
  | some own =>
    have hactive : own.scope ≠ .plain := by simpa using find?_some hfind
    simp only [orOuter, if_neg hactive]
  | none =>
    have hplain := find?_eq_none.mp hfind
    cases hhead : ((functionsAround outer).map fun x => s.classifySelf x.1 x.2).head? with
    | none => by_cases hmodule : s.moduleScope = .plain <;> simp [orOuter, hmodule]
    | some nearest =>
      have hnearest : nearest.scope = .plain := by
        simpa using hplain nearest (mem_of_mem_head? hhead)
      by_cases hmodule : s.moduleScope = .plain <;> simp [orOuter, hmodule, hnearest]

/-! ## Owners -/

/-- A function owns the role that it has by itself, if it is not plain. -/
lemma owner_classifySelf (fn : Node) (outer : List Node) :
    (s.classifySelf fn outer).owner =
      if (s.classifySelf fn outer).scope = .plain then none else some fn := by
  simp only [classifySelf]
  split_ifs <;> simp_all

/-- The nearest function around a piece of code that is a component or a hook by itself, with what it
stands in. -/
def nearestActive? (ancestors : List Node) : Option (Node × List Node) :=
  (functionsAround ancestors).find? fun x => (s.classifySelf x.1 x.2).scope ≠ .plain

/-- The owner of a role is the nearest function that is a component or a hook by itself. -/
lemma owner_role (ancestors : List Node) :
    (s.role ancestors).owner = (s.nearestActive? ancestors).map Prod.fst := by
  have hfind : (s.ownRoles ancestors).find? (fun own => own.scope ≠ .plain) =
      (s.nearestActive? ancestors).map fun x => s.classifySelf x.1 x.2 := find?_map
  rw [role, hfind]
  cases hactive : s.nearestActive? ancestors with
  | some x =>
    have hscope : (s.classifySelf x.1 x.2).scope ≠ .plain := by simpa using find?_some hactive
    simp only [Option.map_some, owner_classifySelf, if_neg hscope]
  | none =>
    have hplain := find?_eq_none.mp hactive
    cases hhead : (s.ownRoles ancestors).head? with
    | none => rfl
    | some nearest =>
      obtain ⟨x, hx, rfl⟩ := mem_map.mp (mem_of_mem_head? hhead)
      have hscope : (s.classifySelf x.1 x.2).scope = .plain := by simpa using hplain x hx
      simp only [Option.map_none]
      split_ifs
      · rw [owner_classifySelf, if_pos hscope]
      · rfl

/-! ## Asking again and again -/

/-- The answers of a surveyor that is asked about one piece of code after the other, and the answers
that are known then. -/
def classifyAll (s : Surveyor) (memo : Memo) : List Cursor → List Classification × Memo
  | [] => ([], memo)
  | c :: rest =>
    let (answer, memo) := s.classify memo c
    let (answers, memo) := s.classifyAll memo rest
    (answer :: answers, memo)

/-- A surveyor that is asked for the first time gives the role by definition. -/
lemma classify_nil_eq_role (c : Cursor) : (s.classify [] c).1 = s.role c.ancestors := by
  rw [classify]
  induction c.ancestors with
  | nil => rfl
  | cons n outer ih =>
    rw [classifyIn]
    split_ifs with hfn
    · simp only [lookup_nil]
      split_ifs with hplain
      · rw [s.role_of_plain hfn hplain, ← ih]
      · exact (s.role_of_own hfn hplain).symm
    · rw [ih, s.role_of_not_isFunction hfn]

/-- Every answer that is known is the role of what stands directly in a function of the tree. -/
def Memo.IsRight (root : Node) (memo : Memo) : Prop :=
  ∀ x ∈ memo, ∃ c ∈ root.cursors, c.node.isFunction = true ∧ c.node.identity = x.1 ∧
    x.2 = s.role (c.node :: c.ancestors)

end Surveyor

/-- No two functions of a tree have the same span and kind. -/
def Node.FunctionsDiffer (root : Node) : Prop :=
  ((root.cursors.filter fun c => c.node.isFunction).map fun c => c.node.identity).Nodup

instance (root : Node) : Decidable root.FunctionsDiffer := inferInstanceAs (Decidable (List.Nodup _))

/-- Functions are told apart by their spans and kinds. -/
lemma Node.FunctionsDiffer.eq_of_identity {root : Node} (h : root.FunctionsDiffer) {c' : Cursor}
    (hc : c ∈ root.cursors) (hc' : c' ∈ root.cursors) (hfn : c.node.isFunction)
    (hfn' : c'.node.isFunction) (hsame : c.node.identity = c'.node.identity) : c = c' :=
  inj_on_of_nodup_map h (mem_filter.mpr ⟨hc, hfn⟩) (mem_filter.mpr ⟨hc', hfn'⟩) hsame

namespace Surveyor

variable {s : Surveyor} {root : Node} {memo : Memo}

/-- What is remembered stays right if the role of a function is added. -/
lemma Memo.IsRight.put (h : memo.IsRight s root) (hc : c ∈ root.cursors) (hfn : c.node.isFunction)
    {answer : Classification} (hanswer : answer = s.role (c.node :: c.ancestors)) :
    Memo.IsRight s root (put memo c.node.identity answer) := by
  intro x hx
  rcases mem_put hx with rfl | hx
  · exact ⟨c, hc, hfn, rfl, hanswer⟩
  · exact h x hx

/-- **One answer is right**, and what is remembered stays right.

**Proof sketch.** Induction on the ancestors. A function that is remembered is the one that was asked
about, since no other one has its span and kind; every other answer follows the definition. -/
theorem classifyIn_eq_role (hdiffer : root.FunctionsDiffer)
    (hancestors : ∀ n outer, (n :: outer) <:+ ancestors → ⟨n, outer⟩ ∈ root.cursors)
    (hmemo : memo.IsRight s root) :
    (s.classifyIn memo ancestors).1 = s.role ancestors ∧
      (s.classifyIn memo ancestors).2.IsRight s root := by
  induction ancestors generalizing memo with
  | nil => exact ⟨rfl, hmemo⟩
  | cons n outer ih =>
    have hn := hancestors n outer (suffix_refl _)
    have houter := fun m above h => hancestors m above (List.IsSuffix.trans h (suffix_cons n outer))
    rw [classifyIn]
    by_cases hfn : n.isFunction
    · rw [if_pos hfn]
      cases hknown : memo.lookup n.identity with
      | some known =>
        obtain ⟨c, hc, hcfn, hidentity, hanswer⟩ := hmemo _ (mem_of_lookup hknown)
        obtain rfl := hdiffer.eq_of_identity hc hn hcfn hfn hidentity
        exact ⟨hanswer, hmemo⟩
      | none =>
        simp only
        split_ifs with hplain
        · obtain ⟨haround, hright⟩ := ih houter hmemo
          have hrole := s.role_of_plain hfn hplain
          rw [← haround] at hrole
          exact ⟨hrole.symm, hright.put hn hfn hrole.symm⟩
        · have hrole := s.role_of_own hfn hplain
          exact ⟨hrole.symm, hmemo.put hn hfn hrole.symm⟩
    · rw [if_neg hfn, s.role_of_not_isFunction hfn]
      exact ih houter hmemo

/-- All answers are right, by induction on the questions. -/
lemma classifyAll_eq_role (hdiffer : root.FunctionsDiffer) {queries : List Cursor}
    (hqueries : ∀ c ∈ queries, c ∈ root.cursors) (hmemo : memo.IsRight s root) :
    (s.classifyAll memo queries).1 = queries.map fun c => s.role c.ancestors := by
  induction queries generalizing memo with
  | nil => rfl
  | cons c rest ih =>
    obtain ⟨hc, hrest⟩ := forall_mem_cons.mp hqueries
    obtain ⟨hanswer, hright⟩ :=
      classifyIn_eq_role hdiffer (fun _ _ => Node.mem_cursors_of_suffix hc) hmemo
    rw [classifyAll, map_cons, ← hanswer, ← ih hrest hright]
    rfl

/-- **Remembering never changes an answer.** In a tree whose functions can be told apart, a surveyor
that is asked about any nodes in any order gives each of them its role by definition; and the owner of a
role is a function among the ancestors of the node. -/
theorem classifyAll_nearest_role (s : Surveyor) (hdiffer : root.FunctionsDiffer) {queries : List Cursor}
    (hqueries : ∀ c ∈ queries, c ∈ root.cursors) :
    (s.classifyAll [] queries).1 = queries.map (fun c => s.role c.ancestors) ∧
      ∀ c ∈ queries, ∀ owner ∈ (s.role c.ancestors).owner,
        owner ∈ c.ancestors ∧ owner ≠ c.node ∧ owner.isFunction = true := by
  refine ⟨classifyAll_eq_role hdiffer hqueries (forall_mem_nil _), fun c hc owner howner => ?_⟩
  rw [owner_role] at howner
  obtain ⟨⟨fn, outer⟩, hactive, rfl⟩ := Option.map_eq_some_iff.mp howner
  obtain ⟨hfn, hsuffix⟩ := mem_functionsAround.mp (mem_of_find?_eq_some hactive)
  have hmem : fn ∈ c.ancestors := hsuffix.mem mem_cons_self
  refine ⟨hmem, ?_, hfn⟩
  rintro rfl
  exact (nodup_cons.mp (Node.nodup_lineage (hqueries c hc))).1 hmem

end Surveyor

/-- A component with a helper in it. -/
def listing : Text := "function List() \x7b const f = () => \"___Item___\"; return <ul/>; \x7d"

/-- The tree of that component. -/
def listingTree : Node :=
  .mk { kind := "program", start := 0, stop := 63 } [
    .mk { kind := "function_declaration", start := 0, stop := 63 } [
      .mk { kind := "identifier", start := 9, stop := 13, field := some "name" } [],
      .mk { kind := "statement_block", start := 16, stop := 63, field := some "body" } [
        .mk { kind := "lexical_declaration", start := 18, stop := 47 } [
          .mk { kind := "variable_declarator", start := 24, stop := 46 } [
            .mk { kind := "identifier", start := 24, stop := 25, field := some "name" } [],
            .mk { kind := "arrow_function", start := 28, stop := 46, field := some "value" } [
              .mk { kind := "string", start := 34, stop := 46, field := some "body" } []]]],
        .mk { kind := "return_statement", start := 48, stop := 61 } [
          .mk { kind := "jsx_self_closing_element", start := 55, stop := 60 } []]]]]

/-- The helper has the role of the component around it, whether the string in it is asked about first or
last. -/
theorem Surveyor.classifyAll_nearest_role_helper :
    let s : Surveyor := { text := listing, options := {} }
    let queries := listingTree.cursors ++ listingTree.cursors.reverse
    listingTree.FunctionsDiffer ∧ (∀ c ∈ queries, c ∈ listingTree.cursors) ∧
      (s.classifyAll [] queries).1 = queries.map (fun c => s.role c.ancestors) ∧
      (∀ c ∈ queries, ∀ owner ∈ (s.role c.ancestors).owner,
        owner ∈ c.ancestors ∧ owner ≠ c.node ∧ owner.isFunction = true) ∧
      ∃ c ∈ queries, c.node.kind = "string" ∧ (s.role c.ancestors).scope = .component ∧
        (s.role c.ancestors).ownerStart = some 0 := by
  intro s queries
  have hdiffer : listingTree.FunctionsDiffer := by decide +kernel
  have hqueries : ∀ c ∈ queries, c ∈ listingTree.cursors := by
    intro c hc
    rcases mem_append.mp hc with hc | hc
    · exact hc
    · exact mem_reverse.mp hc
  obtain ⟨hanswers, howners⟩ := s.classifyAll_nearest_role hdiffer hqueries
  have hstring : (queries.any fun c => c.node.kind == "string" &&
      ((s.role c.ancestors).scope == .component && (s.role c.ancestors).ownerStart == some 0)) = true := by
    decide +kernel
  obtain ⟨c, hc, hfound⟩ := any_eq_true.mp hstring
  simp only [Bool.and_eq_true, beq_iff_eq] at hfound
  exact ⟨hdiffer, hqueries, hanswers, howners, c, hc, hfound⟩

/-! ## Owners in methods -/

/-- Whether a node is a method. -/
def Node.isMethod (n : Node) : Bool := n.kind == "method_definition"

/-- An accessor is acquired in the function that owns the role. -/
lemma Options.ownerStart_of_mem_acquisition {o : Options} {scope : Scope} {ownerStart : Option Int}
    {a : Acquisition} (h : a ∈ (o.convention scope ownerStart).acquisition) :
    a.ownerStart = ownerStart := by
  have hhook : ∀ a ∈ (o.hookConvention ownerStart).acquisition, a.ownerStart = ownerStart := by
    intro a ha
    obtain rfl := Option.mem_some.mp ha
    rfl
  simp only [convention] at h
  split_ifs at h
  · cases h
  · cases scope with
    | component => exact hhook a h
    | hook => exact hhook a h
    | plain =>
      simp only [plainConvention] at h
      split at h
      · cases h
      · exact hhook a h
      · rw [importConvention] at h
        split_ifs at h <;> cases h

namespace Surveyor

variable {s : Surveyor}

/-- What makes a function a component or a hook by itself, where `setup` has no meaning of its own. -/
lemma scope_classifySelf_ne_plain_iff (hreact : s.options.framework = "react") (fn : Node)
    (outer : List Node) :
    (s.classifySelf fn outer).scope ≠ .plain ↔ fn.isMethod = false ∧
      (fn.returnsMarkup ∨ (functionName? s.text fn outer).any s.isHookName) := by
  have hsetup : s.isSetup (functionName? s.text fn outer) = false := by
    simp only [isSetup, hreact]
    rfl
  simp only [classifySelf, hsetup, Node.isMethod]
  split_ifs <;> simp_all

/-- The nearest function that is a component or a hook by itself stands in everything that another such
function stands in. -/
lemma nearestActive?_of_mem (hfn : (fn, outer) ∈ functionsAround ancestors)
    (hscope : (s.classifySelf fn outer).scope ≠ .plain) :
    ∃ owner around, s.nearestActive? ancestors = some (owner, around) ∧ outer ⊆ around := by
  cases hactive : s.nearestActive? ancestors with
  | none => exact absurd hscope (by simpa using find?_eq_none.mp hactive _ hfn)
  | some x =>
    refine ⟨x.1, x.2, rfl, ?_⟩
    obtain ⟨-, before, after, heq, hbefore⟩ := find?_eq_some_iff_append.mp hactive
    have hpairwise := heq ▸ pairwise_functionsAround ancestors
    rw [heq, mem_append, mem_cons] at hfn
    rcases hfn with hfn | rfl | hfn
    · exact absurd hscope (by simpa using hbefore _ hfn)
    · exact List.Subset.refl _
    · have hsuffix := (pairwise_cons.mp (pairwise_append.mp hpairwise).2.1).1 _ hfn
      exact List.Subset.trans (subset_cons_self _ _) hsuffix.subset

/-- **Where the owner of a role can stand.** It is never a method. It stands in a method exactly if some
function around the node does that returns markup or has the name of a hook, since such a function is the
owner, whatever is around it. An accessor is acquired in the owner, and a surveyor that is asked again and
again gives the same answers. -/
theorem classify_owner_in_method_iff (hreact : s.options.framework = "react") {root : Node} {c : Cursor}
    (hc : c ∈ root.cursors) :
    let answer := (s.classify [] c).1
    (∀ owner ∈ answer.owner, owner.isMethod = false) ∧
    ((∃ owner outer, answer.owner = some owner ∧ (owner :: outer) <:+ c.ancestors ∧
        ∃ method ∈ outer, method.isMethod = true) ↔
      ∃ fn outer, fn.isFunction = true ∧ (fn :: outer) <:+ c.ancestors ∧ fn.isMethod = false ∧
        (fn.returnsMarkup = true ∨ (functionName? s.text fn outer).any s.isHookName = true) ∧
        ∃ method ∈ outer, method.isMethod = true) ∧
    (∀ a ∈ (s.options.convention answer.scope answer.ownerStart).acquisition,
      a.ownerStart = answer.ownerStart) ∧
    ∀ queries, root.FunctionsDiffer → (∀ q ∈ queries, q ∈ root.cursors) →
      (s.classifyAll [] queries).1 = queries.map fun q => (s.classify [] q).1 := by
  intro answer
  have howner : answer.owner = (s.nearestActive? c.ancestors).map Prod.fst := by
    rw [← owner_role, ← classify_nil_eq_role]
  -- the function that is found, with what is known about it
  have hspec : ∀ fn outer, s.nearestActive? c.ancestors = some (fn, outer) →
      (fn.isFunction = true ∧ (fn :: outer) <:+ c.ancestors) ∧ fn.isMethod = false ∧
        (fn.returnsMarkup = true ∨ (functionName? s.text fn outer).any s.isHookName = true) := by
    intro fn outer hactive
    have hscope : (s.classifySelf fn outer).scope ≠ .plain := by simpa using find?_some hactive
    exact ⟨mem_functionsAround.mp (mem_of_find?_eq_some hactive),
      (scope_classifySelf_ne_plain_iff hreact fn outer).mp hscope⟩
  refine ⟨?_, ⟨?_, ?_⟩, fun a ha => Options.ownerStart_of_mem_acquisition ha, ?_⟩
  · intro owner hmem
    rw [howner] at hmem
    obtain ⟨⟨fn, outer⟩, hactive, rfl⟩ := Option.map_eq_some_iff.mp hmem
    exact (hspec fn outer hactive).2.1
  · rintro ⟨owner, outer, hmem, hsuffix, hmethod⟩
    rw [howner] at hmem
    obtain ⟨⟨fn, outer'⟩, hactive, rfl⟩ := Option.map_eq_some_iff.mp hmem
    obtain ⟨⟨hfn, hsuffix'⟩, hown⟩ := hspec fn outer' hactive
    obtain rfl := Node.eq_of_suffix hc hsuffix hsuffix'
    exact ⟨fn, outer, hfn, hsuffix, hown.1, hown.2, hmethod⟩
  · rintro ⟨fn, outer, hfn, hsuffix, hnot, hmade, method, hmem, hmethod⟩
    have hscope := (scope_classifySelf_ne_plain_iff hreact fn outer).mpr ⟨hnot, hmade⟩
    obtain ⟨owner, around, hactive, hsub⟩ :=
      nearestActive?_of_mem (mem_functionsAround.mpr ⟨hfn, hsuffix⟩) hscope
    exact ⟨owner, around, by rw [howner, hactive]; rfl, (hspec owner around hactive).1.2, method,
      hsub hmem, hmethod⟩
  · intro queries hdiffer hqueries
    rw [classifyAll_eq_role hdiffer hqueries (forall_mem_nil _)]
    exact map_congr_left fun q _ => (s.classify_nil_eq_role q).symm

end Surveyor

/-- A class whose method maps a list to markup. -/
def classView : Text :=
  "class A \x7b\n  render() \x7b return xs.map((x) => <p>\x7b\"___Hi___\"\x7d</p>); \x7d\n\x7d\n"

/-- The tree of that class. -/
def classViewTree : Node :=
  .mk { kind := "program", start := 0, stop := 70 } [
    .mk { kind := "class_declaration", start := 0, stop := 69 } [
      .mk { kind := "class_body", start := 8, stop := 69, field := some "body" } [
        .mk { kind := "method_definition", start := 12, stop := 67, field := some "member" } [
          .mk { kind := "property_identifier", start := 12, stop := 18, field := some "name" } [],
          .mk { kind := "statement_block", start := 21, stop := 67, field := some "body" } [
            .mk { kind := "return_statement", start := 23, stop := 65 } [
              .mk { kind := "call_expression", start := 30, stop := 64 } [
                .mk { kind := "arguments", start := 36, stop := 64, field := some "arguments" } [
                  .mk { kind := "arrow_function", start := 37, stop := 63 } [
                    .mk { kind := "jsx_element", start := 44, stop := 63, field := some "body" } [
                      .mk { kind := "jsx_expression", start := 47, stop := 59 } [
                        .mk { kind := "string", start := 48, stop := 58 } []]]]]]]]]]]]

/-- The function that is given to `map` returns markup. It is the owner, and the hook is called in it,
although it stands in a method. -/
theorem Surveyor.classify_owner_in_method_iff_callback :
    let s : Surveyor := { text := classView, options := {} }
    s.options.framework = "react" ∧ ∃ c ∈ classViewTree.cursors, c.node.kind = "string" ∧
      (s.classify [] c).1.ownerStart = some 37 ∧
      ∃ owner outer, (s.classify [] c).1.owner = some owner ∧ (owner :: outer) <:+ c.ancestors ∧
        ∃ method ∈ outer, method.isMethod = true := by
  intro s
  have hstring : (classViewTree.cursors.any fun c => c.node.kind == "string" &&
      ((s.classify [] c).1.ownerStart == some 37 && (functionsAround c.ancestors).any fun x =>
        !x.1.isMethod && (x.1.returnsMarkup && x.2.any Node.isMethod))) = true := by
    decide +kernel
  obtain ⟨c, hc, hfound⟩ := any_eq_true.mp hstring
  simp only [Bool.and_eq_true, beq_iff_eq, any_eq_true, Bool.not_eq_true'] at hfound
  obtain ⟨hkind, hstart, ⟨fn, outer⟩, haround, hnot, hmarkup, hmethod⟩ := hfound
  obtain ⟨hfn, hsuffix⟩ := mem_functionsAround.mp haround
  exact ⟨rfl, c, hc, hkind, hstart, (classify_owner_in_method_iff (s := s) rfl hc).2.1.mpr
    ⟨fn, outer, hfn, hsuffix, hnot, .inl hmarkup, hmethod⟩⟩

end Phrasebook
