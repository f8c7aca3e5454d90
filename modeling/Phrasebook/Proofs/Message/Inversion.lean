import Mathlib.Data.List.Nodup
import Phrasebook.Proofs.Message.Catalogue

/-!
# Nested tables and their catalogues

The flat table of a nested one has a text under every key that the names on the way to it spell.

## Main results

* `Json.lookup_flatten` — where two ways spell the same key, the last one of the document counts.
* `Catalogue.inverts_flatten` — the catalogue of a table is its inverse: it lists every key once, under the
  text that the table has for it.
-/

namespace Phrasebook

open List

variable {table : List (Text × Text)}

/-! ## Texts of a document -/

namespace Json

/-- **The text at a place** of a document: the place tells which member is taken in one object after the
other. None of their names, which come with the text, is empty. -/
def textAt? : List Nat → Json → Option (List Text × Text)
  | [], .text t => some ([], t)
  | i :: place, .object members =>
    match members[i]? with
    | some (name, value) =>
      if name = [] then none else (textAt? place value).map fun (names, t) => (name :: names, t)
    | none => none
  | _, _ => none

/-- A text below the members of an object, counted from `i` on, is below the first or below the others. -/
lemma textAt?_members_cons {i : Nat} {name : Text} {value : Json} {members : List (Text × Json)}
    {e : List Nat × List Text × Text} :
    (∃ j place, e.1 = (i + j) :: place ∧
      textAt? (j :: place) (.object ((name, value) :: members)) = some e.2) ↔
    (name ≠ [] ∧ ∃ place inner, textAt? place value = some inner ∧
      (i :: place, name :: inner.1, inner.2) = e) ∨
    ∃ j place, e.1 = (i + 1 + j) :: place ∧ textAt? (j :: place) (.object members) = some e.2 := by
  obtain ⟨p, found⟩ := e
  have hzero : ∀ place, textAt? (0 :: place) (.object ((name, value) :: members)) = some found ↔
      name ≠ [] ∧ ∃ inner, textAt? place value = some inner ∧ (name :: inner.1, inner.2) = found := by
    intro place
    rw [textAt?]
    by_cases hname : name = [] <;> simp [hname]
  have hsucc : ∀ j place, textAt? ((j + 1) :: place) (.object ((name, value) :: members)) =
      textAt? (j :: place) (.object members) := by
    intro j place
    rw [textAt?, textAt?, getElem?_cons_succ]
  constructor
  · rintro ⟨_ | j, place, rfl, h⟩
    · obtain ⟨hname, inner, hinner, rfl⟩ := (hzero place).mp h
      exact .inl ⟨hname, place, inner, hinner, rfl⟩
    · exact .inr ⟨j, place, by simp [Nat.add_assoc, Nat.add_comm 1], (hsucc j place).symm.trans h⟩
  · rintro (⟨hname, place, inner, hinner, heq⟩ | ⟨j, place, rfl, h⟩)
    · obtain ⟨rfl, rfl⟩ := Prod.mk.inj heq
      exact ⟨0, place, rfl, (hzero place).mpr ⟨hname, inner, hinner, rfl⟩⟩
    · exact ⟨j + 1, place, by simp [Nat.add_assoc, Nat.add_comm 1], (hsucc j place).trans h⟩

mutual

/-- **The texts of a value can be listed in document order**, and its leaves are made from that list. -/
theorem exists_entries {path : Text} (hpath : path ≠ []) :
    ∀ value : Json, ∃ entries : List (List Nat × List Text × Text),
      entries.Pairwise (·.1 < ·.1) ∧ (∀ e, e ∈ entries ↔ textAt? e.1 value = some e.2) ∧
      value.leaves path = entries.map fun e => (Text.join "." (path :: e.2.1), e.2.2)
  | .object members => by
    obtain ⟨entries, hsorted, hmem, hleaves⟩ := exists_memberEntries path [path] (by
      rintro name (_ | ⟨next, names⟩) <;> simp [hpath, Text.join, intercalate_cons_cons]) 0 members
    refine ⟨entries, hsorted, fun e => (hmem e).trans ?_, hleaves⟩
    obtain ⟨_ | ⟨i, place⟩, found⟩ := e <;> simp [textAt?]
  | .text t => by
    refine ⟨[([], [], t)], pairwise_singleton _ _, fun e => ?_, by simp [leaves, hpath, Text.join]⟩
    obtain ⟨_ | ⟨i, place⟩, found⟩ := e <;> simp [textAt?, eq_comm]
  | .null | .bool _ | .integer _ | .real _ | .array _ => by
    exact ⟨[], .nil, fun e => by simp [textAt?], rfl⟩

lemma exists_memberEntries (path : Text) (way : List Text)
    (hway : ∀ name names, Text.join "." ((if path.isEmpty then name else path ++ "." ++ name) :: names) =
      Text.join "." (way ++ name :: names)) (i : Nat) :
    ∀ members : List (Text × Json), ∃ entries : List (List Nat × List Text × Text),
      entries.Pairwise (·.1 < ·.1) ∧
      (∀ e, e ∈ entries ↔
        ∃ j place, e.1 = (i + j) :: place ∧ textAt? (j :: place) (.object members) = some e.2) ∧
      memberLeaves path members = entries.map fun e => (Text.join "." (way ++ e.2.1), e.2.2)
  | [] => ⟨[], .nil, fun e => by simp [textAt?], rfl⟩
  | (name, value) :: members => by
    obtain ⟨later, hlater, hmem, hleaves⟩ := exists_memberEntries path way hway (i + 1) members
    by_cases hname : name = []
    · exact ⟨later, hlater, fun e => by rw [textAt?_members_cons, ← hmem]; simp [hname],
        by simp [memberLeaves, hleaves, hname]⟩
    have hkey : (if path.isEmpty then name else path ++ "." ++ name) ≠ [] := by
      split_ifs <;> simp [hname]
    obtain ⟨first, hfirst, hinner, hvalue⟩ := exists_entries hkey value
    refine ⟨first.map (fun e => (i :: e.1, name :: e.2.1, e.2.2)) ++ later, ?_, fun e => ?_, ?_⟩
    · refine pairwise_append.mpr ⟨?_, hlater, fun a ha b hb => ?_⟩
      · exact hfirst.map _ fun a b hab => cons_lt_cons_iff.mpr (.inr ⟨rfl, hab⟩)
      · obtain ⟨inner, -, rfl⟩ := mem_map.mp ha
        obtain ⟨j, place, hplace, -⟩ := (hmem b).mp hb
        rw [hplace]
        exact cons_lt_cons_iff.mpr (.inl (by omega))
    · rw [textAt?_members_cons, ← hmem, mem_append, mem_map]
      refine or_congr_left ⟨?_, ?_⟩
      · rintro ⟨e, he, rfl⟩
        exact ⟨hname, e.1, e.2, (hinner e).mp he, rfl⟩
      · rintro ⟨-, place, inner, h, rfl⟩
        exact ⟨(place, inner), (hinner _).mpr h, rfl⟩
    · rw [memberLeaves, if_neg (by simpa using hname), hleaves, hvalue, map_append, map_map]
      exact congrArg (· ++ _) (map_congr_left fun e _ => congrArg (·, e.2.2) (hway name e.2.1))

end

/-- Of pairs that are made from a list in order, the last with a name is found from the end. -/
lemma lookup_reverse {entries : List (List Nat × List Text × Text)} (h : entries.Pairwise (·.1 < ·.1))
    (pair : List Text × Text → Text × Text) (key text : Text) :
    (entries.map (pair ·.2)).reverse.lookup key = some text ↔ ∃ e ∈ entries, pair e.2 = (key, text) ∧
      ∀ other ∈ entries, e.1 < other.1 → (pair other.2).1 ≠ key := by
  induction entries using List.reverseRecOn with
  | nil => simp
  | append_singleton entries last ih =>
    obtain ⟨hsorted, -, hlast⟩ := pairwise_append.mp h
    have hbefore := fun e he => hlast e he last (mem_singleton_self last)
    have hself : ¬ last.1 < last.1 := List.lt_irrefl _
    have hasymm := fun e he hlt => List.lt_asymm (hbefore e he) hlt
    rw [map_append, reverse_append, map_singleton, reverse_singleton,
      singleton_append, lookup_cons]
    by_cases hkey : (pair last.2).1 = key
    · grind
    · rw [beq_false_of_ne (Ne.symm hkey)]
      refine (ih hsorted).trans ⟨?_, ?_⟩
      · rintro ⟨e, he, hpair, hothers⟩
        refine ⟨e, mem_append_left _ he, hpair, fun other hother hlt => ?_⟩
        rcases mem_append.mp hother with hother | hother
        · exact hothers other hother hlt
        · rwa [mem_singleton.mp hother]
      · rintro ⟨e, he, hpair, hothers⟩
        rcases mem_append.mp he with he | he
        · exact ⟨e, he, hpair, fun other hother => hothers other (mem_append_left _ hother)⟩
        · rw [mem_singleton.mp he] at hpair
          exact absurd (congrArg Prod.fst hpair) hkey

/-- **What the flat table of a document has under a key**: the last text that the key leads to. -/
theorem lookup_flatten (members : List (Text × Json)) (key text : Text) :
    ((object members).flatten []).lookup key = some text ↔
      ∃ place names, textAt? place (object members) = some (names, text) ∧ Text.join "." names = key ∧
        ∀ later found, place < later → textAt? later (object members) = some found →
          Text.join "." found.1 ≠ key := by
  obtain ⟨entries, hsorted, hmem, hleaves⟩ := exists_memberEntries [] [] (fun _ _ => rfl) 0 members
  have hentries : ∀ e, e ∈ entries ↔ textAt? e.1 (object members) = some e.2 := by
    rintro ⟨_ | ⟨i, place⟩, found⟩ <;> simp [hmem, textAt?]
  rw [flatten, tableOf, lookup_putAll, leaves, hleaves, lookup_nil, Option.or_none]
  refine (lookup_reverse hsorted (fun found => (Text.join "." found.1, found.2)) key text).trans ?_
  simp only [hentries]
  constructor
  · rintro ⟨⟨place, names, t⟩, hplace, hpair, hlast⟩
    obtain ⟨hkey, rfl⟩ := Prod.mk.inj hpair
    exact ⟨place, names, hplace, hkey, fun later found hlt hfound => hlast (later, found) hfound hlt⟩
  · rintro ⟨place, names, hplace, rfl, hlast⟩
    exact ⟨(place, names, text), hplace, rfl, fun other hother hlt => hlast other.1 other.2 hlt hother⟩

end Json

/-! ## Keys listed under their texts -/

lemma nodup_keysByText (table : List (Text × Text)) : ((keysByText table).map Prod.fst).Nodup := by
  induction table using List.reverseRecOn with
  | nil => exact nodup_nil
  | append_singleton table pair ih =>
    rw [keysByText_append]
    exact nodup_put ih _ _

/-- A catalogue has no text twice. -/
lemma nodup_ofTable (table : List (Text × Text)) : ((Catalogue.ofTable table).map Prod.fst).Nodup := by
  refine (nodup_keysByText table).sublist ?_
  rw [ofTable_eq]
  induction keysByText table with
  | nil => exact .slnil
  | cons group groups ih =>
    obtain ⟨text, _ | ⟨first, others⟩⟩ := group
    · exact ih.cons _
    · exact ih.cons_cons _

/-- What an entry of keys looks like: the first is the primary one, and several keys make a group. -/
lemma Entry.of_ofKeys? {keys : List Key} {entry : Entry} (h : Entry.ofKeys? keys = some entry) :
    entry.keys = keys ∧ keys.head? = some entry.primary ∧
      ((∃ primary all, entry = .several primary all) ↔ 2 ≤ keys.length) := by
  match keys, h with
  | [first], h =>
    obtain rfl := Option.some.inj h
    exact ⟨rfl, rfl, by simp [ofKeys]⟩
  | first :: second :: others, h =>
    obtain rfl := Option.some.inj h
    exact ⟨rfl, rfl, by simp [ofKeys]⟩

/-- The keys of a text are the names for it. -/
lemma mem_keysOf {text : Text} {key : Key} :
    key ∈ keysOf table text ↔ ∃ name, key = .name name ∧ (name, text) ∈ table := by
  simp only [keysOf, mem_map, mem_filter, Prod.exists, beq_iff_eq]
  grind

/-- No key of a text is listed twice. -/
lemma nodup_keysOf (h : (table.map Prod.fst).Nodup) (text : Text) : (keysOf table text).Nodup := by
  have hnames : ((table.filter fun pair => pair.2 == text).map Prod.fst).Nodup :=
    h.sublist (filter_sublist.map _)
  have hkeys := hnames.map fun a b (hkey : Key.name a = Key.name b) => Key.name.inj hkey
  rwa [map_map] at hkeys

/-- **The catalogue of a nested table is the inverse of its flat table.** The flat table has a text under a key
if and only if that is the last text that the key leads to. The catalogue lists a key for a text if and only
if the flat table has the text under it; it lists the keys of a text in the order of the table, no key twice,
the first of them as the primary one, and as a group if there are several. -/
theorem Catalogue.inverts_flatten (members : List (Text × Json)) :
    let flat := (Json.object members).flatten []
    let index := Catalogue.ofTable flat
    (flat.map Prod.fst).Nodup ∧
    (∀ key text, flat.lookup key = some text ↔
      ∃ place names, (Json.object members).textAt? place = some (names, text) ∧ Text.join "." names = key ∧
        ∀ later found, place < later → (Json.object members).textAt? later = some found →
          Text.join "." found.1 ≠ key) ∧
    (index.map Prod.fst).Nodup ∧
    (∀ text key, (∃ entry, index.lookup text = some entry ∧ key ∈ entry.keys) ↔
      ∃ name, key = .name name ∧ flat.lookup name = some text) ∧
    ∀ text entry, index.lookup text = some entry →
      entry.keys = keysOf flat text ∧ entry.keys.Nodup ∧ entry.keys.head? = some entry.primary ∧
      ((∃ primary keys, entry = .several primary keys) ↔ 2 ≤ entry.keys.length) := by
  intro flat index
  have hnames : (flat.map Prod.fst).Nodup := nodup_tableOf _
  have hmem : ∀ {text : Text} {key : Key}, key ∈ keysOf flat text ↔
      ∃ name, key = .name name ∧ flat.lookup name = some text := by
    intro text key
    rw [mem_keysOf]
    exact exists_congr fun name => and_congr_right fun _ => ⟨lookup_of_mem hnames, mem_of_lookup⟩
  refine ⟨hnames, Json.lookup_flatten members, nodup_ofTable flat, fun text key => ?_, fun text entry hentry => ?_⟩
  · rw [← hmem, lookup_ofTable]
    constructor
    · rintro ⟨entry, hentry, hkey⟩
      rwa [(Entry.of_ofKeys? hentry).1] at hkey
    · intro hkey
      obtain ⟨first, others, hkeys⟩ := exists_cons_of_ne_nil (ne_nil_of_mem hkey)
      have hentry : Entry.ofKeys? (keysOf flat text) = some (.ofKeys first others) := by rw [hkeys]; rfl
      exact ⟨_, hentry, by rwa [(Entry.of_ofKeys? hentry).1]⟩
  · rw [lookup_ofTable] at hentry
    obtain ⟨hkeys, hprimary, hseveral⟩ := Entry.of_ofKeys? hentry
    rw [hkeys]
    exact ⟨rfl, nodup_keysOf hnames text, hprimary, hseveral⟩

/-- A text under two keys. -/
theorem Catalogue.inverts_flatten_shared :
    let table := (Json.object [("common", .object [("ok", .text "OK"), ("save", .text "Save")]),
      ("dialog", .object [("ok", .text "OK")])]).flatten []
    let entry : Entry := .several (.name "common.ok") [.name "common.ok", .name "dialog.ok"]
    (Catalogue.ofTable table).lookup ("OK" : Text) = some entry ∧ entry.keys = keysOf table "OK" ∧
      entry.keys.Nodup := by
  intro table entry
  have hentry : (Catalogue.ofTable table).lookup ("OK" : Text) = some entry := by decide +kernel
  obtain ⟨-, -, -, -, hentries⟩ := Catalogue.inverts_flatten [
    ("common", .object [("ok", .text "OK"), ("save", .text "Save")]), ("dialog", .object [("ok", .text "OK")])]
  obtain ⟨hkeys, hnodup, -⟩ := hentries "OK" entry hentry
  exact ⟨hentry, hkeys, hnodup⟩

end Phrasebook
