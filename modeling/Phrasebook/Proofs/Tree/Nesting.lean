import Mathlib.Data.List.Pairwise
import Phrasebook.Proofs.Text.Bytes
import Phrasebook.Tree.Supplied

/-!
# Nesting of syntax trees

In a well-formed tree every node lies inside its parent, and children follow each other. A parser counts
bytes, and `parse` turns them into characters.

## Main results

* `Node.Nested.pairwise_cursors` — the nodes of such a tree, each before its children, are a laminar family:
  of two of them the later one lies inside the other or behind it.
* `nested_of_parse` — well-formed trees stay so, because the bytes are those at which characters begin.
-/

namespace Phrasebook

open List Text

variable {c : Cursor} {ancestors : List Node} {n root m : Node}

namespace Node

/-- A well-formed tree whose offsets are all of some kind. Every node lies inside its parent, children
follow each other, and a template literal is not empty, since its backticks belong to it. -/
inductive Nested (valid : Nat → Prop) : Node → Prop where
  | mk {label : Label} {children : List Node} :
    valid label.start → valid label.stop → label.start ≤ label.stop →
      (label.kind = "template_string" → label.start < label.stop) →
      (∀ c ∈ children, label.start ≤ c.start ∧ c.stop ≤ label.stop) →
      children.Pairwise (fun a b => a.stop ≤ b.start) →
      (∀ c ∈ children, Nested valid c) → Nested valid (.mk label children)

end Node

/-- A parser whose trees are well formed, unless they are faulty. It counts bytes, and only to those
at which characters begin. -/
def Parser.WellFormed (parser : Parser) : Prop :=
  ∀ dialect t, (parser dialect t).faulty = false → (parser dialect t).root.Nested t.IsBoundary

namespace Node

section Label

variable {valid : Nat → Prop} {n : Node}

lemma Nested.valid_start (h : n.Nested valid) : valid n.start := by
  cases h with
  | mk hstart => exact hstart

lemma Nested.valid_stop (h : n.Nested valid) : valid n.stop := by
  cases h with
  | mk _ hstop => exact hstop

lemma Nested.lt_of_template (h : n.Nested valid) (hkind : n.kind = "template_string") :
    n.start < n.stop := by
  cases h with
  | mk _ _ _ htemplate => exact htemplate hkind

end Label

section Decidable

variable {valid : Nat → Prop}

/-- What makes a node well formed. -/
lemma nested_mk_iff {l : Label} {cs : List Node} : (mk l cs).Nested valid ↔
    valid l.start ∧ valid l.stop ∧ l.start ≤ l.stop ∧ (l.kind = "template_string" → l.start < l.stop) ∧
      (∀ c ∈ cs, l.start ≤ c.start ∧ c.stop ≤ l.stop) ∧ cs.Pairwise (fun a b => a.stop ≤ b.start) ∧
      ∀ c ∈ cs, c.Nested valid := by
  constructor
  · rintro ⟨hstart, hstop, hle, htemplate, hinside, hpair, hall⟩
    exact ⟨hstart, hstop, hle, htemplate, hinside, hpair, hall⟩
  · rintro ⟨hstart, hstop, hle, htemplate, hinside, hpair, hall⟩
    exact .mk hstart hstop hle htemplate hinside hpair hall

variable [DecidablePred valid]

mutual

/-- Whether a tree is well formed can be found out. -/
def decidableNested : (n : Node) → Decidable (n.Nested valid)
  | mk _ cs =>
    haveI := decidableNestedAll cs
    decidable_of_iff _ nested_mk_iff.symm

/-- Whether some trees are well formed can be found out. -/
def decidableNestedAll : (cs : List Node) → Decidable (∀ c ∈ cs, c.Nested valid)
  | [] => .isTrue fun _ h => absurd h not_mem_nil
  | c :: cs =>
    haveI := decidableNested c
    haveI := decidableNestedAll cs
    decidable_of_iff _ forall_mem_cons.symm

end

instance (n : Node) : Decidable (n.Nested valid) := decidableNested n

end Decidable

/-! ## Offsets -/

@[simp]
lemma start_mapOffsets (f : Nat → Nat) (n : Node) : (n.mapOffsets f).start = f n.start := by
  cases n
  rfl

@[simp]
lemma stop_mapOffsets (f : Nat → Nat) (n : Node) : (n.mapOffsets f).stop = f n.stop := by
  cases n
  rfl

lemma mapOffsetsAll_eq_map (f : Nat → Nat) (ns : List Node) :
    mapOffsetsAll f ns = ns.map (mapOffsets f) := by
  induction ns with
  | nil => rfl
  | cons n ns ih => rw [mapOffsetsAll, ih, map_cons]

/-- **Well-formed trees stay so** if offsets are changed in a way that keeps their order. -/
theorem Nested.mapOffsets {valid valid' : Nat → Prop} {f : Nat → Nat} (hvalid : ∀ a, valid a → valid' (f a))
    (hle : ∀ a b, valid a → valid b → a ≤ b → f a ≤ f b) (hlt : ∀ a b, valid a → valid b → a < b → f a < f b)
    (h : n.Nested valid) : (n.mapOffsets f).Nested valid' := by
  induction h with
  | @mk label children hstart hstop horder htemplate hinside hpair hnested ih =>
    have hoffsets : ∀ c ∈ children, valid c.start ∧ valid c.stop := fun c hc =>
      ⟨(hnested c hc).valid_start, (hnested c hc).valid_stop⟩
    rw [Node.mapOffsets, mapOffsetsAll_eq_map]
    refine .mk (hvalid _ hstart) (hvalid _ hstop) (hle _ _ hstart hstop horder) ?_ ?_ ?_ ?_
    · intro hkind
      exact hlt _ _ hstart hstop (htemplate hkind)
    · intro c' hc'
      obtain ⟨c, hc, rfl⟩ := mem_map.mp hc'
      rw [start_mapOffsets, stop_mapOffsets]
      exact ⟨hle _ _ hstart (hoffsets c hc).1 (hinside c hc).1,
        hle _ _ (hoffsets c hc).2 hstop (hinside c hc).2⟩
    · refine pairwise_map.mpr (hpair.imp_of_mem ?_)
      intro a b ha hb hab
      rw [start_mapOffsets, stop_mapOffsets]
      exact hle _ _ (hoffsets a ha).2 (hoffsets b hb).1 hab
    · intro c' hc'
      obtain ⟨c, hc, rfl⟩ := mem_map.mp hc'
      exact ih c hc

/-! ## Walks -/

/-- A node that lies inside another. -/
def within (n outer : Node) : Prop := outer.start ≤ n.start ∧ n.stop ≤ outer.stop

/-- Of two nodes one after the other in a walk, the later one lies inside the other or behind it. -/
def Laminar (a b : Cursor) : Prop := b.node.within a.node ∨ a.node.stop ≤ b.node.start

/-- Of two nodes one after the other in a walk, the later one stands below the other or behind it. -/
def BelowOrBehind (a b : Cursor) : Prop :=
  b ∈ walkAll (a.node :: a.ancestors) a.node.children ∨ a.node.stop ≤ b.node.start

variable {valid : Nat → Prop}

lemma mem_walkAll {children : List Node} :
    c ∈ walkAll ancestors children ↔ ∃ n ∈ children, c ∈ walk ancestors n := by
  induction children with
  | nil => simp [walkAll]
  | cons n rest ih => simp [walkAll, ih]

/-- All nodes of a well-formed tree lie inside its root, and are well formed. -/
lemma Nested.of_mem_walk (h : n.Nested valid) (hc : c ∈ n.walk ancestors) :
    c.node.within n ∧ c.node.Nested valid := by
  induction h generalizing ancestors with
  | @mk label children hstart hstop horder htemplate hinside hpair hnested ih =>
    rw [walk, mem_cons] at hc
    rcases hc with rfl | hc
    · exact ⟨⟨Nat.le_refl _, Nat.le_refl _⟩,
        .mk hstart hstop horder htemplate hinside hpair hnested⟩
    · obtain ⟨child, hchild, hc⟩ := mem_walkAll.mp hc
      obtain ⟨⟨hle, hge⟩, hwell⟩ := ih child hchild hc
      have hchild' := hinside child hchild
      exact ⟨⟨Nat.le_trans hchild'.1 hle, Nat.le_trans hge hchild'.2⟩, hwell⟩

/-- What a walk starts with is above all that it comes to. -/
lemma Nested.suffix_of_mem_walk (h : n.Nested valid) (hc : c ∈ n.walk ancestors) :
    ancestors <:+ c.ancestors := by
  induction h generalizing ancestors with
  | @mk label children _ _ _ _ _ _ _ ih =>
    rw [walk, mem_cons] at hc
    rcases hc with rfl | hc
    · exact suffix_refl _
    · obtain ⟨child, hchild, hc⟩ := mem_walkAll.mp hc
      exact List.IsSuffix.trans (suffix_cons _ _) (ih child hchild hc)

/-- A node that a walk comes to lies inside those of its ancestors that the walk has come to. -/
lemma Nested.within_of_mem_walk (h : n.Nested valid) (hc : c ∈ n.walk ancestors)
    (hm : m ∈ c.ancestors) : m ∈ ancestors ∨ c.node.within m := by
  have hwhole := h
  induction h generalizing ancestors with
  | @mk label children _ _ _ _ _ _ hnested ih =>
    have hinside := (hwhole.of_mem_walk hc).1
    rw [walk, mem_cons] at hc
    rcases hc with rfl | hc
    · exact .inl hm
    · obtain ⟨child, hchild, hc⟩ := mem_walkAll.mp hc
      rcases ih child hchild hc (hnested child hchild) with hm | hm
      · rcases mem_cons.mp hm with rfl | hm
        · exact .inr hinside
        · exact .inl hm
      · exact .inr hm

/-- A node of a well-formed tree lies inside its ancestors. -/
lemma Nested.within_of_mem_ancestors (h : root.Nested valid) (hc : c ∈ root.cursors)
    (hm : m ∈ c.ancestors) : c.node.within m :=
  (h.within_of_mem_walk hc hm).resolve_left not_mem_nil

/-- What stands below a node lies inside it, and has it among its ancestors. -/
lemma Nested.of_mem_below (h : n.Nested valid) (hc : c ∈ walkAll (n :: ancestors) n.children) :
    c.node.within n ∧ (n :: ancestors) <:+ c.ancestors := by
  cases h with
  | @mk label children _ _ _ _ hinside _ hnested =>
    obtain ⟨child, hchild, hc⟩ := mem_walkAll.mp hc
    obtain ⟨⟨hle, hge⟩, -⟩ := (hnested child hchild).of_mem_walk hc
    have hchild' := hinside child hchild
    exact ⟨⟨Nat.le_trans hchild'.1 hle, Nat.le_trans hge hchild'.2⟩,
      (hnested child hchild).suffix_of_mem_walk hc⟩

/-- The walks of nodes that follow each other are in place if each of them is. -/
lemma pairwise_walkAll : ∀ {children : List Node},
    (∀ n ∈ children, n.Nested valid) → children.Pairwise (fun a b => a.stop ≤ b.start) →
      (∀ n ∈ children, (n.walk ancestors).Pairwise BelowOrBehind) →
      (walkAll ancestors children).Pairwise BelowOrBehind
  | [], _, _, _ => List.Pairwise.nil
  | n :: rest, hnested, hpair, hwalks => by
    obtain ⟨hnext, hpair'⟩ := pairwise_cons.mp hpair
    have hrest := pairwise_walkAll (fun m hm => hnested m (mem_cons_of_mem n hm)) hpair'
      fun m hm => hwalks m (mem_cons_of_mem n hm)
    refine pairwise_append.mpr ⟨hwalks n mem_cons_self, hrest, ?_⟩
    intro a ha b hb
    obtain ⟨m, hm, hb⟩ := mem_walkAll.mp hb
    obtain ⟨⟨-, hstop⟩, -⟩ := (hnested n mem_cons_self).of_mem_walk ha
    obtain ⟨⟨hstart, -⟩, -⟩ := (hnested m (mem_cons_of_mem n hm)).of_mem_walk hb
    exact .inr (Nat.le_trans hstop (Nat.le_trans (hnext m hm) hstart))

/-- The nodes of a well-formed tree stand below each other or one behind the other.

**Proof sketch.** Induction on the tree. All nodes below the root lie inside it; below different
children they lie one behind the other. -/
lemma Nested.pairwise_walk (h : n.Nested valid) (ancestors : List Node) :
    (n.walk ancestors).Pairwise BelowOrBehind := by
  induction h generalizing ancestors with
  | @mk label children hstart hstop horder htemplate hinside hpair hnested ih =>
    rw [walk, pairwise_cons]
    exact ⟨fun c hc => .inl hc, pairwise_walkAll hnested hpair fun n hn => ih n hn _⟩

/-- **The nodes of a well-formed tree are a laminar family.** -/
theorem Nested.pairwise_cursors (h : root.Nested valid) : root.cursors.Pairwise Laminar := by
  refine (h.pairwise_walk []).imp_of_mem fun {a b} ha _ hab => ?_
  exact hab.imp_left fun hbelow => ((h.of_mem_walk ha).2.of_mem_below hbelow).1

/-- Two nodes of a well-formed tree are the same, or one of them comes first, and the other stands below it
or behind it. -/
lemma Nested.eq_or_belowOrBehind (h : root.Nested valid) {a b : Cursor} (ha : a ∈ root.cursors)
    (hb : b ∈ root.cursors) : a = b ∨ BelowOrBehind a b ∨ BelowOrBehind b a := by
  have hwalk : root.cursors.Pairwise BelowOrBehind := h.pairwise_walk []
  refine List.Pairwise.forall_of_forall_of_flip
    (R := fun a b => a = b ∨ BelowOrBehind a b ∨ BelowOrBehind b a)
    (fun _ _ => .inl rfl) (hwalk.imp fun hp => .inr (.inl hp)) (hwalk.imp fun hp => ?_) ha hb
  exact .inr (.inr hp)

end Node

/-! ## Parsing -/

/-- **The tree of a text that is parsed** is well formed, and its offsets lie in the text. -/
theorem nested_of_parse {parser : Parser} (hparser : parser.WellFormed) {t dialect file : Text}
    (h : parse parser t dialect file = .ok root) : root.Nested (· ≤ t.length) := by
  rw [parse] at h
  split at h
  · cases h
  · cases h
  · rename_i d _ _
    simp only at h
    split_ifs at h with hfaulty
    obtain rfl := Except.ok.inj h
    have hnested := hparser d t (by simpa using hfaulty)
    refine Node.Nested.mapOffsets ?_ ?_ ?_ hnested
    · exact fun _ ha => (le_charOffset_iff ha.le).1
    · exact fun _ _ _ hb hab => charOffset_mono hab hb.le
    · exact fun _ _ ha hb hab => charOffset_lt ha hb hab

/-- The parser that looks trees up is well formed if the supplied trees are. -/
theorem wellFormed_ofSupplied {trees : List SuppliedTree}
    (h : ∀ s ∈ trees, s.tree.root.Nested s.text.IsBoundary) :
    (Parser.ofSupplied trees).WellFormed := by
  intro dialect t hfaulty
  rw [Parser.ofSupplied] at hfaulty ⊢
  cases hfind : trees.find? fun s => s.dialect == dialect && s.text == t with
  | none =>
    rw [hfind] at hfaulty
    cases hfaulty
  | some s =>
    have hkey := find?_some hfind
    rw [Bool.and_eq_true_iff, beq_iff_eq, beq_iff_eq] at hkey
    obtain ⟨-, rfl⟩ := hkey
    exact h s (mem_of_find?_eq_some hfind)

end Phrasebook
