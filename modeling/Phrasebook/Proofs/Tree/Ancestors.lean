import Mathlib.Data.List.Chain
import Mathlib.Data.List.Nodup
import Mathlib.Data.List.Infix
import Phrasebook.Tree.Node

/-!
# Ancestors in a tree

A walk of a tree gives every node with its ancestors. Each of them is a child of the next one.

## Main results

* `Node.mem_cursors_of_suffix` — ancestors are nodes of the tree, each with those that come after it.
* `Node.nodup_lineage` — no node stands among its own ancestors.
-/

namespace Phrasebook

open List

namespace Node

/-! ## The walk of a parent -/

mutual

/-- A node that a walk comes to is one that it starts with, or its parent is in the walk. -/
lemma parent_of_mem_walk : ∀ (n : Node) (ancestors : List Node) {c : Cursor},
    c ∈ n.walk ancestors → c.ancestors = ancestors ∨
      ∃ parent outer, c.ancestors = parent :: outer ∧ ⟨parent, outer⟩ ∈ n.walk ancestors
  | mk l cs, ancestors, c, h => by
    rw [walk] at h ⊢
    rcases mem_cons.mp h with rfl | h
    · exact .inl rfl
    · rcases parent_of_mem_walkAll cs (mk l cs :: ancestors) h with htop | ⟨parent, outer, heq, hmem⟩
      · exact .inr ⟨mk l cs, ancestors, htop, mem_cons_self⟩
      · exact .inr ⟨parent, outer, heq, mem_cons_of_mem _ hmem⟩

lemma parent_of_mem_walkAll : ∀ (cs ancestors : List Node) {c : Cursor},
    c ∈ walkAll ancestors cs → c.ancestors = ancestors ∨
      ∃ parent outer, c.ancestors = parent :: outer ∧ ⟨parent, outer⟩ ∈ walkAll ancestors cs
  | [], _, _, h => absurd h not_mem_nil
  | n :: rest, ancestors, c, h => by
    rw [walkAll] at h ⊢
    rcases mem_append.mp h with h | h
    · rcases parent_of_mem_walk n ancestors h with htop | ⟨parent, outer, heq, hmem⟩
      · exact .inl htop
      · exact .inr ⟨parent, outer, heq, mem_append_left _ hmem⟩
    · rcases parent_of_mem_walkAll rest ancestors h with htop | ⟨parent, outer, heq, hmem⟩
      · exact .inl htop
      · exact .inr ⟨parent, outer, heq, mem_append_right _ hmem⟩

end

variable {root n : Node} {c : Cursor} {outer : List Node}

/-- **An ancestor of a node is a node of the tree**, and its ancestors are those that come after it. -/
theorem mem_cursors_of_suffix (hc : c ∈ root.cursors) (h : (n :: outer) <:+ c.ancestors) :
    ⟨n, outer⟩ ∈ root.cursors := by
  obtain ⟨inner, heq⟩ := h
  -- one step up for every node between the two
  induction inner generalizing c with
  | nil =>
    rcases parent_of_mem_walk root [] hc with htop | ⟨parent, above, habove, hmem⟩
    · cases heq.trans htop
    · obtain ⟨rfl, rfl⟩ := List.cons.inj (heq.trans habove)
      exact hmem
  | cons m inner ih =>
    rcases parent_of_mem_walk root [] hc with htop | ⟨parent, above, habove, hmem⟩
    · cases heq.trans htop
    · exact ih hmem (List.cons.inj (heq.trans habove)).2

/-! ## Lineages -/

/-- Every node of a list is a child of the next one. -/
def IsLineage (nodes : List Node) : Prop := nodes.IsChain fun child parent => child ∈ parent.children

mutual

lemma IsLineage.of_mem_walk : ∀ {n : Node} {ancestors : List Node}, IsLineage (n :: ancestors) →
    ∀ {c : Cursor}, c ∈ n.walk ancestors → IsLineage (c.node :: c.ancestors)
  | mk l cs, ancestors, h, c, hc => by
    rw [walk] at hc
    rcases mem_cons.mp hc with rfl | hc
    · exact h
    · have hbelow : ∀ child ∈ cs, IsLineage (child :: mk l cs :: ancestors) := fun child hchild =>
        isChain_cons_cons.mpr ⟨(hchild : child ∈ (mk l cs).children), h⟩
      exact of_mem_walkAll cs hbelow hc

lemma IsLineage.of_mem_walkAll : ∀ (cs : List Node) {ancestors : List Node},
    (∀ n ∈ cs, IsLineage (n :: ancestors)) →
      ∀ {c : Cursor}, c ∈ walkAll ancestors cs → IsLineage (c.node :: c.ancestors)
  | [], _, _, _, hc => absurd hc not_mem_nil
  | n :: rest, ancestors, h, c, hc => by
    obtain ⟨hn, hrest⟩ := forall_mem_cons.mp h
    rw [walkAll] at hc
    rcases mem_append.mp hc with hc | hc
    · exact hn.of_mem_walk hc
    · exact of_mem_walkAll rest hrest hc

end

/-- A child is smaller than its parent. -/
lemma sizeOf_lt_of_mem_children {child parent : Node} (h : child ∈ parent.children) :
    sizeOf child < sizeOf parent := by
  obtain ⟨l, cs⟩ := parent
  have hlt := sizeOf_lt_of_mem h
  simp only [children] at hlt
  simp only [mk.sizeOf_spec]
  omega

/-- **A node and its ancestors are all different**, since each of them is a smaller tree than the
next. -/
theorem nodup_lineage (hc : c ∈ root.cursors) : (c.node :: c.ancestors).Nodup := by
  have hlineage : IsLineage (c.node :: c.ancestors) :=
    IsLineage.of_mem_walk (isChain_singleton root) hc
  have hsizes : (c.node :: c.ancestors).IsChain fun a b => sizeOf a < sizeOf b :=
    hlineage.imp fun _ _ => sizeOf_lt_of_mem_children
  have htrans : IsTrans Node fun a b => sizeOf a < sizeOf b := ⟨fun _ _ _ => lt_trans⟩
  exact (isChain_iff_pairwise.mp hsizes).imp fun hlt heq => absurd (heq ▸ hlt) (lt_irrefl _)

/-- **An ancestor determines what it stands in.** -/
theorem eq_of_suffix (hc : c ∈ root.cursors) {outer' : List Node} (h : (n :: outer) <:+ c.ancestors)
    (h' : (n :: outer') <:+ c.ancestors) : outer = outer' := by
  have hnodup := (nodup_cons.mp (nodup_lineage hc)).2
  have hshorter : ∀ {a b : List Node}, (n :: a) <:+ (n :: b) → (n :: b) <:+ c.ancestors → a = b := by
    intro a b hab hb
    rcases suffix_cons_iff.mp hab with heq | hinside
    · exact (List.cons.inj heq).2
    · have hfresh := (nodup_cons.mp (hnodup.sublist hb.sublist)).1
      exact absurd (hinside.mem mem_cons_self) hfresh
  rcases suffix_or_suffix_of_suffix h h' with hle | hle
  · exact hshorter hle h'
  · exact (hshorter hle h).symm

end Node

end Phrasebook
