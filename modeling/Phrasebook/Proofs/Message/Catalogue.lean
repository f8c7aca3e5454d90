import Mathlib.Data.List.Induction
import Phrasebook.Message.Catalogue
import Phrasebook.Proofs.Assoc
import Phrasebook.Proofs.Json.RoundTrip

/-!
# What a catalogue knows

## Main results

* `lookup_ofTable` — a catalogue that is made from a table knows a text exactly if the table has it, and
  then under the names that the table has for it, in their order.
* `flatten_ofTexts` — a flat table that is read from an object of texts is the table that was written,
  unless a name is empty or repeated.
-/

namespace Phrasebook

open List

variable {table : List (Text × Text)}

/-! ## Catalogues of tables -/

/-- The names that a table has for a text, as keys. -/
def keysOf (table : List (Text × Text)) (text : Text) : List Key :=
  (table.filter fun pair => pair.2 == text).map fun pair => .name pair.1

/-- The entry of some keys, if there are any. -/
def Entry.ofKeys? : List Key → Option Entry
  | [] => none
  | first :: others => some (ofKeys first others)

lemma keysOf_append (table : List (Text × Text)) (name value text : Text) :
    keysOf (table ++ [(name, value)]) text =
      keysOf table text ++ if value = text then [.name name] else [] := by
  by_cases h : value = text <;> simp [keysOf, filter_append, h]

/-- One more entry is listed under its text. -/
lemma keysByText_append (table : List (Text × Text)) (name value : Text) :
    keysByText (table ++ [(name, value)]) = put (keysByText table) value
      (((keysByText table).lookup value).getD [] ++ [.name name]) := by
  rw [keysByText, foldl_append]
  rfl

/-- The groups of a table: a text has one if the table has the text. -/
lemma lookup_keysByText (table : List (Text × Text)) (text : Text) :
    (keysByText table).lookup text = if keysOf table text = [] then none else some (keysOf table text) := by
  induction table using List.reverseRecOn with
  | nil => rfl
  | append_singleton table pair ih =>
    obtain ⟨name, value⟩ := pair
    rw [keysByText_append, lookup_put, keysOf_append]
    by_cases h : value = text
    · subst h
      rw [ih]
      by_cases hnil : keysOf table value = [] <;> simp [hnil]
    · have hne : (text == value) = false := beq_false_of_ne (Ne.symm h)
      simp [hne, h, ih]

lemma ne_nil_of_mem_keysByText {group : Text × List Key} (h : group ∈ keysByText table) : group.2 ≠ [] := by
  induction table using List.reverseRecOn with
  | nil => cases h
  | append_singleton table pair ih =>
    rw [keysByText_append] at h
    rcases mem_put h with rfl | h
    · simp
    · exact ih h

/-- The catalogue of a table, from the keys by text. -/
lemma ofTable_eq (table : List (Text × Text)) :
    Catalogue.ofTable table = (keysByText table).filterMap fun group =>
      (Entry.ofKeys? group.2).map fun entry => (group.1, entry) := by
  rw [Catalogue.ofTable]
  congr 1
  funext group
  obtain ⟨text, _ | ⟨first, others⟩⟩ := group <;> rfl

/-- The entries of groups that are not empty. -/
lemma lookup_filterMap_ofKeys? {groups : List (Text × List Key)} (h : ∀ group ∈ groups, group.2 ≠ [])
    (text : Text) :
    List.lookup text (groups.filterMap fun group =>
      (Entry.ofKeys? group.2).map fun entry => (group.1, entry)) =
        (groups.lookup text).bind Entry.ofKeys? := by
  induction groups with
  | nil => rfl
  | cons group groups ih =>
    obtain ⟨t, keys⟩ := group
    obtain ⟨hkeys, hgroups⟩ := forall_mem_cons.mp h
    obtain ⟨first, others, rfl⟩ := exists_cons_of_ne_nil hkeys
    have hentry : Entry.ofKeys? (first :: others) = some (.ofKeys first others) := rfl
    simp only [filterMap_cons, hentry, Option.map_some, lookup_cons, ih hgroups]
    cases text == t <;> rfl

/-- **What the catalogue of a table knows about a text**: the names that the table has for it. -/
theorem lookup_ofTable (table : List (Text × Text)) (text : Text) :
    (Catalogue.ofTable table).lookup text = Entry.ofKeys? (keysOf table text) := by
  rw [ofTable_eq, lookup_filterMap_ofKeys? (fun _ => ne_nil_of_mem_keysByText), lookup_keysByText]
  by_cases hnil : keysOf table text = []
  · rw [if_pos hnil, hnil]
    rfl
  · rw [if_neg hnil]
    rfl

/-! ## Flat tables -/

namespace Json

/-- The texts of an object of texts, if no name is empty. -/
lemma memberLeaves_textMembers (h : ∀ pair ∈ table, pair.1 ≠ []) :
    memberLeaves [] (textMembers table) = table := by
  induction table with
  | nil => rw [textMembers, map_nil, memberLeaves]
  | cons pair table ih =>
    obtain ⟨name, value⟩ := pair
    obtain ⟨hname, htable⟩ := forall_mem_cons.mp h
    have hleaves := ih htable
    rw [textMembers] at hleaves
    simp [textMembers, memberLeaves, leaves, hname, hleaves]

/-- **The flat table of an object of texts** is the table that it was made from, if no name is empty or
repeated. -/
theorem flatten_ofTexts (hnames : ∀ pair ∈ table, pair.1 ≠ []) (hnodup : (table.map Prod.fst).Nodup) :
    (ofTexts table).flatten [] = table := by
  rw [flatten, ofTexts, leaves, memberLeaves_textMembers hnames, tableOf_of_nodup hnodup]

/-- An object of texts is read back as it is, if no name is repeated. -/
lemma parse_render_of_nodup (hnodup : (table.map Prod.fst).Nodup) :
    parse ((ofTexts table).render ++ "\n") = .ok (ofTexts table) := by
  have hmembers : ((textMembers table).map Prod.fst).Nodup := by
    rwa [textMembers, map_map]
  rw [parse_render_ofTexts, tableOf_of_nodup hmembers, ofTexts]

end Json

end Phrasebook
