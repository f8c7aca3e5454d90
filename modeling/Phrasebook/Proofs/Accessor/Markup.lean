import Phrasebook.Accessor.Classify
import Phrasebook.Proofs.Tree.Ancestors

/-!
# Functions that return markup

Whether a function returns markup is found out by two searches, one for return statements and one for
markup in what they return. Each keeps a stack of nodes that are still to be looked at. Neither goes
into everything, so what they find is what can be reached from where they start through the nodes that
they go into: every round keeps what the stack promises.

## Main results

* `Node.searchFor_iff` — a search finds what its stack promises.
* `Node.search_children_iff` — a search below a node finds what can be reached from it.
* `Node.returnsMarkup_iff` — when a function returns markup.
-/

namespace Phrasebook

open List Option

variable {P : Node → Prop} {m n : Node}

namespace Node

/-! ## Searches -/

/-- `n.Reaches enters m`: the node `m` stands below `n`, and every node between the two is one that may
be gone into. -/
inductive Reaches (enters : Node → Prop) : Node → Node → Prop where
  | child {n m : Node} : m ∈ n.children → Reaches enters n m
  /-- What stands below a child. -/
  | through {n c m : Node} : c ∈ n.children → enters c → Reaches enters c m → Reaches enters n m

/-- More is reached if more can be entered. -/
lemma Reaches.mono {Q : Node → Prop} (hPQ : ∀ n, P n → Q n) (h : n.Reaches P m) :
    n.Reaches Q m := by
  induction h with
  | child hmem => exact .child hmem
  | through hmem hc _ ih => exact .through hmem (hPQ _ hc) ih

/-- On the way to a node of some kind there is a first one of that kind. -/
lemma Reaches.exists_first {F : Node → Prop} (h : n.Reaches P m) (hm : F m) :
    ∃ m', F m' ∧ n.Reaches (fun k => ¬ F k ∧ P k) m' := by
  induction h with
  | child hmem => exact ⟨_, hm, .child hmem⟩
  | @through n c m hmem hc _ ih =>
    by_cases hfirst : F c
    · exact ⟨c, hfirst, .child hmem⟩
    · obtain ⟨m', hm', hreach⟩ := ih hm
      exact ⟨m', hm', .through hmem ⟨hfirst, hc⟩ hreach⟩

section Search

variable {look : Node → Look} {n : Node} {rest stack : List Node}

/-- **A stack that promises something**: a node on it is what is looked for, or is gone into and leads
there. -/
def Promises (look : Node → Look) (stack : List Node) : Prop :=
  ∃ n ∈ stack, ∃ m, look m = .found ∧ (m = n ∨ look n = .enter ∧ n.Reaches (look · = .enter) m)

/-- A node that is passed promises nothing. -/
lemma promises_pass (h : look n = .pass) : Promises look (n :: rest) ↔ Promises look rest := by
  constructor
  · rintro ⟨k, hk, m, hm, hlead⟩
    rcases mem_cons.mp hk with rfl | hk
    · rcases hlead with rfl | ⟨henter, -⟩
      · rw [h] at hm
        cases hm
      · rw [h] at henter
        cases henter
    · exact ⟨k, hk, m, hm, hlead⟩
  · rintro ⟨k, hk, hlead⟩
    exact ⟨k, mem_cons_of_mem n hk, hlead⟩

/-- A node that is gone into promises what its children do. -/
lemma promises_enter (h : look n = .enter) :
    Promises look (n :: rest) ↔ Promises look (n.children.reverse ++ rest) := by
  constructor
  · rintro ⟨k, hk, m, hm, hlead⟩
    rcases mem_cons.mp hk with rfl | hk
    · have hchild : ∀ {c}, c ∈ k.children → c ∈ k.children.reverse ++ rest := fun hc =>
        mem_append_left rest (mem_reverse.mpr hc)
      rcases hlead with rfl | ⟨-, hmem | ⟨hmem, henter, hreach⟩⟩
      · rw [h] at hm
        cases hm
      · exact ⟨m, hchild hmem, m, hm, .inl rfl⟩
      · exact ⟨_, hchild hmem, m, hm, .inr ⟨henter, hreach⟩⟩
    · exact ⟨k, mem_append_right _ hk, m, hm, hlead⟩
  · rintro ⟨k, hk, m, hm, hlead⟩
    rcases mem_append.mp hk with hk | hk
    · refine ⟨n, mem_cons_self, m, hm, .inr ⟨h, ?_⟩⟩
      rcases hlead with rfl | ⟨henter, hreach⟩
      · exact .child (mem_reverse.mp hk)
      · exact .through (mem_reverse.mp hk) henter hreach
    · exact ⟨k, mem_cons_of_mem n hk, m, hm, hlead⟩

lemma sizeAll_append (l l' : List Node) : sizeAll (l ++ l') = sizeAll l + sizeAll l' := by
  induction l with
  | nil => rw [nil_append, sizeAll, Nat.zero_add]
  | cons c l ih => rw [cons_append, sizeAll, sizeAll, ih, Nat.add_assoc]

lemma sizeAll_reverse (l : List Node) : sizeAll l.reverse = sizeAll l := by
  induction l with
  | nil => rfl
  | cons c l ih => rw [reverse_cons, sizeAll_append, ih, sizeAll, sizeAll, sizeAll]; omega

/-- The children of a node take the place of one node more on the stack. -/
lemma sizeAll_cons (n : Node) (rest : List Node) :
    sizeAll (n :: rest) = sizeAll (n.children.reverse ++ rest) + 1 := by
  obtain ⟨l, cs⟩ := n
  rw [sizeAll, size, sizeAll_append, sizeAll_reverse, children]
  omega

/-- **A search finds what its stack promises.**

**Proof sketch.** Induction on the rounds. Every round keeps what the stack promises, unless it ends
the search, and takes one node away. -/
theorem searchFor_iff {rounds : Nat} (hsize : sizeAll stack ≤ rounds) :
    searchFor look rounds stack ↔ Promises look stack := by
  induction rounds generalizing stack with
  | zero =>
    cases stack with
    | nil => simp [searchFor, Promises]
    | cons n rest =>
      rw [sizeAll_cons] at hsize
      omega
  | succ rounds ih =>
    cases stack with
    | nil => simp [searchFor, Promises]
    | cons n rest =>
      rw [sizeAll_cons] at hsize
      rw [searchFor]
      cases hlook : look n with
      | found => exact iff_of_true rfl ⟨n, mem_cons_self, n, hlook, .inl rfl⟩
      | pass =>
        rw [promises_pass hlook]
        refine ih ?_
        rw [sizeAll_append] at hsize
        omega
      | enter =>
        rw [promises_enter hlook]
        exact ih (by omega)

/-- **What a search below a node finds** is what can be reached through the nodes that it goes into. -/
theorem search_children_iff (n : Node) :
    search look n.children ↔ ∃ m, look m = .found ∧ n.Reaches (look · = .enter) m := by
  rw [search, searchFor_iff (le_refl _)]
  constructor
  · rintro ⟨k, hk, m, hm, rfl | ⟨henter, hreach⟩⟩
    · exact ⟨m, hm, .child (mem_reverse.mp hk)⟩
    · exact ⟨m, hm, .through (mem_reverse.mp hk) henter hreach⟩
  · rintro ⟨m, hm, hmem | ⟨hmem, henter, hreach⟩⟩
    · exact ⟨m, mem_reverse.mpr hmem, m, hm, .inl rfl⟩
    · exact ⟨_, mem_reverse.mpr hmem, m, hm, .inr ⟨henter, hreach⟩⟩

end Search

/-! ## Parentheses -/

/-- `n.Unwraps m`: without the parentheses around it the node `n` is `m`. -/
inductive Unwraps : Node → Node → Prop where
  /-- There are no parentheses. -/
  | bare {n : Node} : n.kind ≠ "parenthesized_expression" → Unwraps n n
  /-- In the parentheses, the first node that is no comment counts. -/
  | inside {n inner m : Node} : n.kind = "parenthesized_expression" → n.contents.head? = some inner →
    Unwraps inner m → Unwraps n m

/-- The first of some nodes that is no comment is the one that counts. -/
lemma unwrapFirst_eq (cs : List Node) : unwrapFirst cs = (cs.filter isContent).head?.bind unwrap := by
  induction cs with
  | nil => rfl
  | cons c cs ih =>
    rw [unwrapFirst, filter_cons]
    split_ifs
    · rfl
    · exact ih

/-- One pair of parentheses is taken away. -/
lemma unwrap_eq (n : Node) : n.unwrap =
    if n.kind = "parenthesized_expression" then n.contents.head?.bind unwrap else some n := by
  obtain ⟨l, cs⟩ := n
  rw [unwrap, unwrapFirst_eq]
  simp only [beq_iff_eq]
  rfl

/-- Taking parentheses away ends at the first node that stands in none. -/
lemma unwrap_eq_some_iff : n.unwrap = some m ↔ n.Unwraps m := by
  constructor
  · intro h
    induction hsize : sizeOf n using Nat.strong_induction_on generalizing n with
    | _ size ih =>
      rw [unwrap_eq] at h
      split_ifs at h with hkind
      · obtain ⟨inner, hinner, h⟩ := bind_eq_some_iff.mp h
        have hmem : inner ∈ n.children := (mem_filter.mp (mem_of_head? hinner)).1
        exact .inside hkind hinner (ih _ (hsize ▸ sizeOf_lt_of_mem_children hmem) h rfl)
      · obtain rfl := some.inj h
        exact .bare hkind
  · intro h
    induction h with
    | bare hkind => rw [unwrap_eq, if_neg hkind]
    | inside hkind hinner _ ih => rw [unwrap_eq, if_pos hkind, hinner, bind_some, ih]

/-! ## Markup -/

/-- An expression that is markup, or below which markup stands outside of functions. The expression
may be a function itself. -/
def HoldsMarkup (n : Node) : Prop :=
  ∃ m, m.isMarkup = true ∧ (m = n ∨ n.Reaches (fun k => ¬ k.isFunction = true) m)

/-- Markup in an expression is found wherever it is. -/
lemma containsMarkup_iff (n : Node) : n.containsMarkup ↔ n.HoldsMarkup := by
  have hfound : ∀ k : Node, lookForMarkup k = .found ↔ k.isMarkup = true := by
    intro k
    rw [lookForMarkup]
    split_ifs with hmarkup <;> simp [hmarkup]
  have henter : ∀ k : Node, lookForMarkup k = .enter ↔ ¬ k.isMarkup = true ∧ ¬ k.isFunction = true := by
    intro k
    rw [lookForMarkup]
    split_ifs with hmarkup hfunction <;> simp [*]
  rw [containsMarkup, Bool.or_eq_true, search_children_iff, HoldsMarkup]
  simp only [hfound, henter]
  constructor
  · rintro (h | ⟨m, hm, hreach⟩)
    · exact ⟨n, h, .inl rfl⟩
    · exact ⟨m, hm, .inr (hreach.mono fun _ h => h.2)⟩
  · rintro ⟨m, hm, rfl | hreach⟩
    · exact .inl hm
    · exact .inr (hreach.exists_first hm)

/-- What is gone into on the way to a return statement: no function, no class and no other return
statement. -/
def IsInBody (n : Node) : Prop :=
  ¬ n.isFunction = true ∧ ¬ n.isClass = true ∧ n.kind ≠ "return_statement"

/-- A return statement is neither a function nor a class. -/
lemma not_isFunction_of_return (h : n.kind = "return_statement") :
    n.isFunction = false ∧ n.isClass = false := by
  rw [isFunction, isClass, h]
  decide

/-- Return statements with markup are found wherever they are. -/
lemma search_lookForReturn_iff (n : Node) : search lookForReturn n.children ↔
    ∃ statement argument, statement.kind = "return_statement" ∧ n.Reaches IsInBody statement ∧
      statement.contents.head? = some argument ∧ argument.HoldsMarkup := by
  have hfound : ∀ k : Node, lookForReturn k = .found ↔ k.kind = "return_statement" ∧
      ∃ argument, k.contents.head? = some argument ∧ argument.HoldsMarkup := by
    intro k
    rw [lookForReturn]
    by_cases hreturn : k.kind = "return_statement"
    · obtain ⟨hfunction, hclass⟩ := not_isFunction_of_return hreturn
      simp [hfunction, hclass, hreturn, Option.any_eq_true, containsMarkup_iff]
    · simp only [beq_iff_eq, hreturn, if_false, false_and, iff_false]
      split_ifs <;> simp
  have henter : (lookForReturn · = .enter) = IsInBody := by
    funext k
    simp only [lookForReturn, IsInBody, eq_iff_iff]
    split_ifs with hskip hreturn
    · rcases Bool.or_eq_true_iff.mp hskip with hskip | hskip <;> simp [hskip]
    · simp [beq_iff_eq.mp hreturn]
    · simp [beq_iff_eq.mp hreturn]
    · simp only [Bool.or_eq_true, not_or] at hskip
      simpa [hskip] using hreturn
  rw [search_children_iff, henter]
  simp only [hfound]
  constructor
  · rintro ⟨statement, ⟨hkind, argument, hhead, hmarkup⟩, hreach⟩
    exact ⟨statement, argument, hkind, hreach, hhead, hmarkup⟩
  · rintro ⟨statement, argument, hkind, hreach, hhead, hmarkup⟩
    exact ⟨statement, ⟨hkind, argument, hhead, hmarkup⟩, hreach⟩

/-- **When a function returns markup.** Either its body is an expression that holds markup, once the
parentheses around it are taken away; or the body is a block, and some return statement in it, outside
of nested functions, classes and other return statements, has a first argument that holds markup. -/
theorem returnsMarkup_iff (fn : Node) : fn.returnsMarkup = true ↔
    ∃ body, fn.child? "body" = some body ∧
      ((body.kind ≠ "statement_block" ∧ ∃ expression, body.Unwraps expression ∧
          expression.HoldsMarkup) ∨
        (body.kind = "statement_block" ∧ ∃ statement argument, statement.kind = "return_statement" ∧
          body.Reaches IsInBody statement ∧ statement.contents.head? = some argument ∧
          argument.HoldsMarkup)) := by
  rw [returnsMarkup]
  cases hbody : fn.child? "body" with
  | none => simp
  | some body =>
    simp only [some.injEq, exists_eq_left']
    by_cases hblock : body.kind = "statement_block"
    · simp [hblock, search_lookForReturn_iff]
    · simp [hblock, Option.any_eq_true, unwrap_eq_some_iff, containsMarkup_iff]

end Node

end Phrasebook
