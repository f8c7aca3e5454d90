import Phrasebook.Message.Placeholder
import Phrasebook.Proofs.Message.Canonical
import Phrasebook.Proofs.Sorting

/-!
# What is passed to a lookup

The arguments of a lookup are taken from the payload: an expression that is embedded in it gets a
numbered name, and a name in braces stands for itself.

## Main results

* `isFrom_of_mem_informalArguments` — no argument has a character that is not in the payload, but for its
  number, and none has a closing brace.
-/

namespace Phrasebook

open List

variable {name t : Text} {offset skip : Nat} {x : Nat × Argument}

/-- An argument that is taken from a payload. -/
structure Argument.IsFrom (payload : Text) (a : Argument) : Prop where
  name_eq : a.name = a.expression ∨ ∃ n, a.name = argumentName n
  subset : a.expression ⊆ payload
  notMem : .scalar '\x7d' ∉ a.expression

/-- What is embedded stands in the text and holds no closing brace. -/
lemma embedded?_eq_some {inner : Text} (h : embedded? t = some inner) :
    inner ⊆ t ∧ .scalar '\x7d' ∉ inner := by
  obtain ⟨hembeddable, rest, rfl⟩ := exists_of_embedded? h
  exact ⟨fun c hc => by simp [hc], fun hc => hembeddable.not_brace _ hc rfl⟩

/-- An expression is part of the payload. -/
lemma isFrom_of_mem_positionalArguments {count : Nat}
    (h : x ∈ positionalArguments offset skip count t) : x.2.IsFrom t := by
  induction t generalizing offset skip count with
  | nil => exact absurd h not_mem_nil
  | cons c rest ih =>
    have htail : ∀ {offset skip count}, x ∈ positionalArguments offset skip count rest →
        x.2.IsFrom (c :: rest) := fun hx =>
      ⟨(ih hx).name_eq, subset_cons_of_subset c (ih hx).subset, (ih hx).notMem⟩
    cases skip with
    | succ skip => exact htail h
    | zero =>
      rw [positionalArguments] at h
      cases hinner : embedded? (c :: rest) with
      | none =>
        rw [hinner] at h
        exact htail h
      | some inner =>
        rw [hinner] at h
        rcases mem_cons.mp h with rfl | h
        · obtain ⟨hsubset, hbrace⟩ := embedded?_eq_some hinner
          have htrim := Text.trimWhile_subset CodePoint.isBlank inner
          exact ⟨.inr ⟨count + 1, rfl⟩, List.Subset.trans htrim hsubset, fun hc => hbrace (htrim hc)⟩
        · exact htail h

/-- A name in braces has no braces in it. -/
lemma exists_of_bracedName? (h : bracedName? t = some name) :
    .scalar '\x7b' ∉ name ∧ .scalar '\x7d' ∉ name ∧ ∃ rest : Text, t = "\x7b" ++ (name ++ ("\x7d" ++ rest)) := by
  rw [bracedName?.eq_def] at h
  split at h
  · rename_i c tail
    split_ifs at h with hstart
    simp only at h
    split_ifs at h with hclosed
    obtain rfl := Option.some.inj h
    have hnot : ∀ d : CodePoint, d.isIdentifierStart = false → d.isIdentifierPart = false →
        d ∉ c :: tail.takeWhile CodePoint.isIdentifierPart := by
      intro d hfirst hpart hmem
      rcases mem_cons.mp hmem with rfl | hmem
      · exact absurd hstart (by simp [hfirst])
      · exact absurd (mem_takeWhile_imp hmem) (by simp [hpart])
    refine ⟨hnot _ (by decide) (by decide +kernel), hnot _ (by decide) (by decide +kernel), ?_⟩
    obtain ⟨rest, hrest⟩ := head?_eq_some_iff.mp (beq_iff_eq.mp hclosed)
    obtain ⟨after, hafter⟩ := takeWhile_prefix (l := tail) CodePoint.isIdentifierPart
    have hdrop := congrArg (List.drop (tail.takeWhile CodePoint.isIdentifierPart).length) hafter
    rw [drop_left, hrest] at hdrop
    rw [hdrop] at hafter
    exact ⟨rest, congrArg (fun u : Text => .scalar '\x7b' :: c :: u) hafter.symm⟩
  · cases h

/-- A name in braces stands in the text and holds no closing brace. -/
lemma bracedName?_eq_some (h : bracedName? t = some name) : name ⊆ t ∧ .scalar '\x7d' ∉ name := by
  obtain ⟨-, hclosing, rest, rfl⟩ := exists_of_bracedName? h
  exact ⟨fun c hc => by simp [hc], hclosing⟩

/-- A name in braces is part of the payload. -/
lemma isFrom_of_mem_namedArguments {afterDollar : Bool} (h : x ∈ namedArguments afterDollar offset skip t) :
    x.2.IsFrom t := by
  induction t generalizing afterDollar offset skip with
  | nil => exact absurd h not_mem_nil
  | cons c rest ih =>
    have htail : ∀ {afterDollar offset skip}, x ∈ namedArguments afterDollar offset skip rest →
        x.2.IsFrom (c :: rest) := fun hx =>
      ⟨(ih hx).name_eq, subset_cons_of_subset c (ih hx).subset, (ih hx).notMem⟩
    cases skip with
    | succ skip => exact htail h
    | zero =>
      rw [namedArguments] at h
      split at h
      · exact htail h
      · rename_i name hname
        rcases mem_cons.mp h with rfl | h
        · split_ifs at hname
          obtain ⟨hsubset, hbrace⟩ := bracedName?_eq_some hname
          exact ⟨.inl rfl, hsubset, hbrace⟩
        · exact htail h

lemma dropRepeated_subset (arguments : List Argument) : dropRepeated arguments ⊆ arguments := by
  have hfold : ∀ (rest kept : List Argument), rest.foldl (fun kept a =>
      if kept.any fun b => b.name == a.name then kept else kept ++ [a]) kept ⊆ kept ++ rest := by
    intro rest
    induction rest with
    | nil => simp
    | cons a rest ih =>
      intro kept
      rw [foldl_cons]
      refine List.Subset.trans (ih _) ?_
      split_ifs
      · exact append_subset.mpr ⟨subset_append_left _ _,
          subset_append_of_subset_right _ (subset_cons_self a rest)⟩
      · simp
  exact hfold arguments []

/-- **The arguments of a payload are taken from it.** -/
theorem isFrom_of_mem_informalArguments {payload : Text} {a : Argument}
    (h : a ∈ informalArguments payload) : a.IsFrom payload := by
  have hmem := dropRepeated_subset _ h
  obtain ⟨x, hx, rfl⟩ := mem_map.mp hmem
  rcases mem_append.mp ((sortAscending_perm _ _).mem_iff.mp hx) with hx | hx
  · exact isFrom_of_mem_positionalArguments hx
  · exact isFrom_of_mem_namedArguments hx

/-- **Arguments as they are passed** stand in braces; between these there are only the characters of
their names and expressions, and a few signs. -/
theorem exists_renderArguments (arguments : List Argument) :
    ∃ inner : Text, renderArguments arguments = "\x7b " ++ inner ++ " \x7d" ∧
      ∀ c ∈ inner, c.isOneOf ", :" ∨ ∃ a ∈ arguments, c ∈ a.name ∨ c ∈ a.expression := by
  refine ⟨_, rfl, fun c hc => ?_⟩
  rcases Text.mem_join hc with hc | ⟨part, hpart, hc⟩
  · exact .inl ((by decide : ∀ c ∈ (", " : Text), c.isOneOf ", :" = true) c hc)
  · obtain ⟨a, ha, rfl⟩ := mem_map.mp hpart
    split_ifs at hc
    · exact .inr ⟨a, ha, .inl hc⟩
    · rw [mem_append, mem_append] at hc
      rcases hc with (hc | hc) | hc
      · exact .inr ⟨a, ha, .inl hc⟩
      · exact .inl ((by decide : ∀ c ∈ (": " : Text), c.isOneOf ", :" = true) c hc)
      · exact .inr ⟨a, ha, .inr hc⟩

end Phrasebook
