import Mathlib.Tactic.SplitIfs
import Phrasebook.Path
import Phrasebook.Proofs.Text.Slice

/-!
# Paths and how they are written

A path that a text spells is proper: its names are neither empty nor a single dot, and no slash
stands in them.

## Main results

* `Path.isProper_ofText` — the paths of texts are proper.
* `Path.text_inj` — different proper paths are written differently, since each is read back.
-/

namespace Phrasebook

open List

variable {names : List Text} {mark : CodePoint} {p : Path} {slashes t : Text}

namespace Text

variable {p : CodePoint → Bool}

lemma forall_mem_splitWhere (t : Text) : ∀ part ∈ t.splitWhere p, ∀ c ∈ part, p c = false := by
  induction t with
  | nil => simp [splitWhere]
  | cons c rest ih =>
    rw [splitWhere]
    split_ifs with hc
    · exact forall_mem_cons.mpr ⟨forall_mem_nil _, ih⟩
    · have hc' : p c = false := by simpa using hc
      split
      · exact forall_mem_singleton.mpr (forall_mem_singleton.mpr hc')
      · rename_i part parts heq
        obtain ⟨hpart, hparts⟩ := forall_mem_cons.mp (heq ▸ ih)
        exact forall_mem_cons.mpr ⟨forall_mem_cons.mpr ⟨hc', hpart⟩, hparts⟩

lemma splitWhere_of_forall (h : ∀ c ∈ t, p c = false) : t.splitWhere p = [t] := by
  induction t with
  | nil => rfl
  | cons c rest ih =>
    obtain ⟨hc, hrest⟩ := forall_mem_cons.mp h
    rw [splitWhere, ih hrest, hc]
    rfl

/-- The first part ends at the first mark. -/
lemma splitWhere_append_cons (h : ∀ c ∈ t, p c = false) (hmark : p mark) (rest : Text) :
    (t ++ mark :: rest).splitWhere p = t :: rest.splitWhere p := by
  induction t with
  | nil => rw [nil_append, splitWhere, if_pos hmark]
  | cons c t ih =>
    obtain ⟨hc, ht⟩ := forall_mem_cons.mp h
    rw [cons_append, splitWhere, ih ht, hc]
    rfl

/-- Names that are joined are read back, if they hold no mark. -/
lemma splitWhere_join (hmark : p mark) (hnames : ∀ name ∈ names, ∀ c ∈ name, p c = false)
    (hne : names ≠ []) : (join [mark] names).splitWhere p = names := by
  induction names with
  | nil => exact absurd rfl hne
  | cons name rest ih =>
    obtain ⟨hname, hrest⟩ := forall_mem_cons.mp hnames
    cases rest with
    | nil => simpa [join] using splitWhere_of_forall hname
    | cons next rest =>
      have hjoin : join [mark] (name :: next :: rest) = name ++ mark :: join [mark] (next :: rest) := by
        simp [join]
      rw [hjoin, splitWhere_append_cons hname hmark, ih hrest (cons_ne_nil _ _)]

end Text

namespace Path

/-- Whether a code point separates names. -/
def isSlash (c : CodePoint) : Bool := c == '/'

/-- A name that a path can hold. -/
structure IsName (name : Text) : Prop where
  ne_nil : name ≠ []
  ne_dot : name ≠ "."
  no_slash : ∀ c ∈ name, isSlash c = false

/-- A path that a text spells. -/
structure IsProper (p : Path) : Prop where
  /-- It begins with nothing, a slash, or two slashes. -/
  anchor : p.anchor = [] ∨ p.anchor = "/" ∨ p.anchor = "//"
  names : ∀ name ∈ p.names, IsName name

/-- **The path that a text spells is proper.** -/
theorem isProper_ofText (t : Text) : (ofText t).IsProper where
  anchor := by
    simp only [ofText, anchorOf]
    split
    · exact .inl rfl
    · exact .inr (.inr rfl)
    · exact .inr (.inl rfl)
  names := by
    intro name hname
    obtain ⟨hpart, hkept⟩ := mem_filter.mp hname
    simp only [Bool.and_eq_true, Bool.not_eq_true', isEmpty_eq_false_iff, bne_iff_ne] at hkept
    exact ⟨hkept.1, hkept.2, Text.forall_mem_splitWhere t name hpart⟩

lemma head_join (h : ∀ name ∈ names, IsName name) : ∀ c ∈ (Text.join "/" names).head?, isSlash c = false := by
  cases names with
  | nil => simp [Text.join]
  | cons name rest =>
    obtain ⟨hname, -⟩ := forall_mem_cons.mp h
    obtain ⟨c, name', rfl⟩ := exists_cons_of_ne_nil hname.ne_nil
    intro d hd
    have hhead : (Text.join "/" ((c :: name') :: rest)).head? = some c := by
      cases rest <;> simp [Text.join]
    rw [hhead] at hd
    exact Option.mem_some.mp hd ▸ hname.no_slash c mem_cons_self

/-- What a text begins with are its first slashes. -/
lemma anchorOf_append {rest : Text} (hslashes : ∀ c ∈ slashes, isSlash c)
    (hrest : ∀ c ∈ rest.head?, isSlash c = false) : anchorOf (slashes ++ rest) = anchorOf slashes := by
  have hfirst : (slashes ++ rest).takeWhile isSlash = slashes :=
    takeWhile_append_of_head hslashes hrest
  have hall : slashes.takeWhile isSlash = slashes := by
    simpa using takeWhile_append_of_head (r := []) hslashes (by simp)
  have hlength : ((slashes ++ rest).takeWhile isSlash).length = (slashes.takeWhile isSlash).length := by
    rw [hfirst, hall]
  unfold isSlash at hlength
  simp only [anchorOf, hlength]

/-- Slashes in front do not change the names of a path. -/
lemma names_ofText_append (hslashes : ∀ c ∈ slashes, isSlash c)
    (rest : Text) : (ofText (slashes ++ rest)).names = (ofText rest).names := by
  induction slashes with
  | nil => rfl
  | cons c slashes ih =>
    obtain ⟨hc, hmore⟩ := forall_mem_cons.mp hslashes
    rw [← ih hmore]
    have hsplit : Text.splitWhere isSlash (c :: (slashes ++ rest)) =
        [] :: Text.splitWhere isSlash (slashes ++ rest) := by
      rw [Text.splitWhere, if_pos hc]
    show List.filter _ (Text.splitWhere isSlash (c :: (slashes ++ rest))) = _
    rw [hsplit, filter_cons_of_neg (by simp)]
    rfl

/-- The names of a path are read back from how they are written. -/
lemma names_ofText_join (h : ∀ name ∈ names, IsName name) : (ofText (Text.join "/" names)).names = names := by
  cases names with
  | nil => rfl
  | cons name rest =>
    have hsplit : Text.splitWhere isSlash (Text.join "/" (name :: rest)) = name :: rest :=
      Text.splitWhere_join rfl (fun n hn => (h n hn).no_slash) (cons_ne_nil _ _)
    show List.filter _ (Text.splitWhere isSlash (Text.join "/" (name :: rest))) = _
    rw [hsplit]
    refine filter_eq_self.mpr fun n hn => ?_
    simp [(h n hn).ne_nil, (h n hn).ne_dot]

/-- **A proper path is read back from how it is written.** -/
theorem ofText_text (h : p.IsProper) : ofText p.text = p := by
  obtain ⟨anchor, names⟩ := p
  rw [text]
  split_ifs with hnone
  · obtain ⟨rfl, rfl⟩ : anchor = [] ∧ names = [] := by simpa using hnone
    decide
  · have hslashes : ∀ c ∈ anchor, isSlash c := by
      obtain rfl | rfl | rfl := h.anchor <;> decide
    have hanchor : anchorOf anchor = anchor := by
      obtain rfl | rfl | rfl := h.anchor <;> rfl
    have hstart : anchorOf (anchor ++ Text.join "/" names) = anchor :=
      (anchorOf_append hslashes (head_join h.names)).trans hanchor
    have hnames : (ofText (anchor ++ Text.join "/" names)).names = names :=
      (names_ofText_append hslashes _).trans (names_ofText_join h.names)
    exact congr (congrArg Path.mk hstart) hnames

/-- **Different proper paths are written differently.** -/
theorem text_inj {q : Path} (hp : p.IsProper) (hq : q.IsProper) (h : p.text = q.text) : p = q := by
  rw [← ofText_text hp, ← ofText_text hq, h]

end Path

end Phrasebook
