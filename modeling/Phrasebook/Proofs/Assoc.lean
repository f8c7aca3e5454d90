import Mathlib.Tactic.Lemma
import Phrasebook.Assoc

/-!
# Looking up a name in a table

## Main results

* `mem_of_lookup`, `lookup_of_mem` — what is found in a table.
* `lookup_put`, `mem_put`, `nodup_put` — what is found after a name has been set.
-/

namespace Phrasebook

open List

variable {α β : Type} [BEq α] [LawfulBEq α]

/-- What is looked up is in the table. -/
theorem mem_of_lookup {table : List (α × β)} {name : α} {value : β}
    (h : table.lookup name = some value) : (name, value) ∈ table := by
  obtain ⟨before, after, rfl, -⟩ := lookup_eq_some_iff.mp h
  simp

/-- What the table says about a name is what it stands for, if it says only one thing about it. -/
theorem lookup_of_mem {table : List (α × β)} (hnodup : (table.map Prod.fst).Nodup) {name : α} {value : β}
    (h : (name, value) ∈ table) : table.lookup name = some value := by
  obtain ⟨before, after, rfl⟩ := append_of_mem h
  refine lookup_eq_some_iff.mpr ⟨before, after, rfl, fun pair hpair => ?_⟩
  rw [map_append, nodup_append] at hnodup
  have hne := hnodup.2.2 pair.1 (mem_map_of_mem hpair) name (by simp)
  simpa using hne.symm

/-- **Setting a name** changes what that name stands for, and no other. -/
theorem lookup_put (table : List (α × β)) (name n : α) (value : β) :
    (put table name value).lookup n = if n == name then some value else table.lookup n := by
  induction table with
  | nil => by_cases h : n == name <;> simp [put, lookup_cons, h]
  | cons pair rest ih =>
    obtain ⟨m, v⟩ := pair
    rw [put]
    by_cases hm : m = name
    · subst hm
      by_cases hn : n = m
      · simp [hn]
      · simp [lookup_cons, beq_false_of_ne hn]
    · by_cases hn : n = m
      · subst hn
        simp [hm]
      · simp [lookup_cons, hm, beq_false_of_ne hn, ih]

/-- What is in a table after a name is set. -/
theorem mem_put {table : List (α × β)} {name : α} {value : β} {pair : α × β}
    (h : pair ∈ put table name value) : pair = (name, value) ∨ pair ∈ table := by
  induction table with
  | nil => simpa [put] using h
  | cons first rest ih =>
    obtain ⟨m, v⟩ := first
    rw [put] at h
    by_cases hm : m = name
    · subst hm
      rcases mem_cons.mp (by simpa using h) with rfl | hrest
      · exact .inl rfl
      · exact .inr (mem_cons_of_mem _ hrest)
    · rcases mem_cons.mp (by simpa [hm] using h) with rfl | hrest
      · exact .inr mem_cons_self
      · exact (ih hrest).imp_right (mem_cons_of_mem _)

/-- Setting a name to what it stands for changes nothing. -/
lemma put_of_lookup {table : List (α × β)} {name : α} {value : β}
    (h : table.lookup name = some value) : put table name value = table := by
  induction table with
  | nil => cases h
  | cons first rest ih =>
    obtain ⟨m, v⟩ := first
    rw [put]
    by_cases hm : m = name
    · subst hm
      rw [lookup_cons_self] at h
      rw [if_pos (beq_self_eq_true m), Option.some.inj h]
    · have hne : (name == m) = false := beq_false_of_ne (Ne.symm hm)
      rw [lookup_cons, hne] at h
      rw [if_neg (by simpa using hm), ih h]

lemma mem_names_put {table : List (α × β)} {name n : α} {value : β}
    (h : n ∈ (put table name value).map Prod.fst) : n = name ∨ n ∈ table.map Prod.fst := by
  obtain ⟨pair, hpair, rfl⟩ := mem_map.mp h
  rcases mem_put hpair with rfl | hold
  · exact .inl rfl
  · exact .inr (mem_map_of_mem hold)

/-- **Setting a name repeats none.** -/
theorem nodup_put {table : List (α × β)} (h : (table.map Prod.fst).Nodup) (name : α) (value : β) :
    ((put table name value).map Prod.fst).Nodup := by
  induction table with
  | nil => simp [put]
  | cons first rest ih =>
    obtain ⟨m, v⟩ := first
    obtain ⟨hm, hrest⟩ := nodup_cons.mp h
    rw [put]
    by_cases hname : (m == name)
    · rw [if_pos hname]
      exact h
    · rw [if_neg hname]
      refine nodup_cons.mpr ⟨fun hmem => ?_, ih hrest⟩
      rcases mem_names_put hmem with rfl | hold
      · exact hname (beq_self_eq_true _)
      · exact hm hold

/-- A new name comes to the end. -/
lemma put_of_notMem {table : List (α × β)} {name : α} (h : name ∉ table.map Prod.fst) (value : β) :
    put table name value = table ++ [(name, value)] := by
  induction table with
  | nil => rfl
  | cons first rest ih =>
    obtain ⟨m, v⟩ := first
    obtain ⟨hm, hrest⟩ := ne_and_not_mem_of_not_mem_cons h
    rw [put, if_neg (by simpa using hm.symm), ih hrest, cons_append]

/-- New names come to the end in their order. -/
lemma putAll_of_nodup {table pairs : List (α × β)} (h : ((table ++ pairs).map Prod.fst).Nodup) :
    putAll table pairs = table ++ pairs := by
  induction pairs generalizing table with
  | nil => rw [append_nil, putAll, foldl_nil]
  | cons pair pairs ih =>
    have hnew : pair.1 ∉ table.map Prod.fst := by
      rw [map_append, nodup_append] at h
      exact fun hmem => h.2.2 pair.1 hmem pair.1 (by simp) rfl
    have hassoc : table ++ pair :: pairs = table ++ [pair] ++ pairs := by simp
    rw [hassoc] at h ⊢
    rw [putAll, foldl_cons, put_of_notMem hnew]
    exact ih h

/-- **Pairs without a repeated name are a table as they are.** -/
theorem tableOf_of_nodup {pairs : List (α × β)} (h : (pairs.map Prod.fst).Nodup) : tableOf pairs = pairs :=
  putAll_of_nodup (by rwa [nil_append])

/-- Of the values that come for one name the last stays. -/
lemma lookup_putAll (table pairs : List (α × β)) (name : α) :
    (putAll table pairs).lookup name = (pairs.reverse.lookup name).or (table.lookup name) := by
  induction pairs generalizing table with
  | nil => rfl
  | cons pair pairs ih =>
    obtain ⟨n, value⟩ := pair
    have hput : (put table n value).lookup name = (List.lookup name [(n, value)]).or (table.lookup name) := by
      rw [lookup_put]
      by_cases h : name == n <;> simp [lookup_cons, h]
    rw [reverse_cons, lookup_append, Option.or_assoc, ← hput]
    exact ih _

lemma nodup_putAll {table : List (α × β)} (h : (table.map Prod.fst).Nodup) (pairs : List (α × β)) :
    ((putAll table pairs).map Prod.fst).Nodup := by
  induction pairs generalizing table with
  | nil => exact h
  | cons pair pairs ih => exact ih (nodup_put h _ _)

/-- In a table no name is repeated. -/
lemma nodup_tableOf (pairs : List (α × β)) : ((tableOf pairs).map Prod.fst).Nodup := by
  rw [tableOf]
  exact nodup_putAll (by simp) pairs

end Phrasebook
