import Mathlib.Algebra.Ring.Nat
import Mathlib.Data.List.Perm.Basic
import Phrasebook.Proofs.Text.Slice
import Phrasebook.Text.Blank

/-!
# Lists written with commas

Between two items of a list stands one comma, and there may be one behind the last item; spacing may
stand anywhere.

## Main results

* `Text.Listing.count_comma` — the commas of a list: those of its items, one between any two, maybe a last one.
* `Text.not_commaList_of_unseparated` — two lists with nothing between them are no list.
-/

namespace Phrasebook

open List Option

variable {items new : List Text} {t : Text}

/-- Whether a character may stand between the tokens of a program: white space, and the marks without
width. -/
def CodePoint.isSpacing (c : CodePoint) : Bool :=
  c.isBlank || [0x200B, 0x2060, 0xFEFF].contains c.toNat

/-- The character between two items. -/
def CodePoint.comma : CodePoint := ','

namespace Text

open CodePoint (comma)

/-- A text of spacing. -/
def IsSpacing (t : Text) : Prop := ∀ c ∈ t, c.isSpacing = true

instance (t : Text) : Decidable t.IsSpacing := inferInstanceAs (Decidable (∀ c ∈ t, _))

lemma isSpacing_nil : IsSpacing [] := forall_mem_nil _

lemma isSpacing_blank : IsSpacing " " := by decide

lemma IsSpacing.append {t' : Text} (h : t.IsSpacing) (h' : t'.IsSpacing) : IsSpacing (t ++ t') :=
  forall_mem_append.mpr ⟨h, h'⟩

/-! ## Items and commas -/

/-- **A text that lists items with commas.** It is read from the front, and `due` tells whether it stands
behind an item, so that a comma is due before the next one. -/
inductive Listing : Bool → List Text → Text → Prop
  | stop {due : Bool} {gap : Text} (hgap : gap.IsSpacing) : Listing due [] gap
  | item {gap item tail : Text} {items : List Text} (hgap : gap.IsSpacing) (h : Listing true items tail) :
    Listing false (item :: items) (gap ++ item ++ tail)
  | separator {gap rest : Text} {items : List Text} (hgap : gap.IsSpacing) (h : Listing false items rest) :
    Listing true items (gap ++ comma :: rest)

/-- **A list written with commas**: a comma between any two neighbours, and perhaps one behind the last. -/
def CommaList (items : List Text) (t : Text) : Prop := Listing false items t

/-- **Items with commas between them**, followed by the rest of a list. -/
theorem Listing.join_append {gap tail : Text} (hgap : gap.IsSpacing) (h : Listing true items tail)
    (hnew : new ≠ []) : CommaList (new ++ items) (gap ++ join ", " new ++ tail) := by
  induction new generalizing gap with
  | nil => exact absurd rfl hnew
  | cons x new ih =>
    cases new with
    | nil =>
      rw [join, intercalate_singleton]
      exact .item hgap h
    | cons y new =>
      have hrest := ih isSpacing_blank (cons_ne_nil y new)
      have hsplit : gap ++ join ", " (x :: y :: new) ++ tail =
          gap ++ x ++ ([] ++ comma :: (ofString " " ++ join ", " (y :: new) ++ tail)) := by
        rw [join, intercalate_cons_cons, ← join]
        simp [ofString, comma]
      rw [hsplit]
      exact .item hgap (.separator isSpacing_nil hrest)

/-! ## Counting commas -/

/-- The last character that is no spacing. -/
def lastMark? (t : Text) : Option CodePoint := (t.filter fun c => !c.isSpacing).getLast?

lemma lastMark?_append (t t' : Text) : lastMark? (t ++ t') = t'.lastMark?.or t.lastMark? := by
  rw [lastMark?, filter_append, getLast?_append]
  rfl

lemma IsSpacing.lastMark? (h : t.IsSpacing) : t.lastMark? = none := by
  have hnone : t.filter (fun c => !c.isSpacing) = [] := by
    simpa [filter_eq_nil_iff, IsSpacing] using h
  rw [Text.lastMark?, hnone]
  rfl

lemma IsSpacing.count_comma (h : t.IsSpacing) : t.count comma = 0 :=
  count_eq_zero.mpr fun hmem => absurd (h comma hmem) (by decide)

/-- A text that ends in a character other than a comma, if spacing is left out. -/
def IsItem (t : Text) : Prop := ∃ c, t.lastMark? = some c ∧ c ≠ comma

/-- Items with commas between them end as the last of them does. -/
lemma isItem_join (hne : items ≠ []) (h : ∀ x ∈ items, IsItem x) : IsItem (join ", " items) := by
  induction items with
  | nil => exact absurd rfl hne
  | cons x items ih =>
    cases items with
    | nil =>
      rw [join, intercalate_singleton]
      exact h x mem_cons_self
    | cons y items =>
      obtain ⟨c, hlast, hc⟩ := ih (cons_ne_nil y items) fun z hz => h z (mem_cons_of_mem x hz)
      refine ⟨c, ?_, hc⟩
      rw [join, intercalate_cons_cons, ← join, lastMark?_append, hlast]
      rfl

namespace Listing

/-- A list with an item has a mark. -/
lemma isSome_lastMark? {x : Text} (h : Listing false (x :: items) t) (hx : x.IsItem) :
    t.lastMark?.isSome := by
  obtain ⟨c, hlast, -⟩ := hx
  cases h with
  | item hgap h => simp [lastMark?_append, hlast]

/-- **How many commas there are**: those of the items, one between any two neighbours, and the one behind
the last item, in which the text ends. -/
theorem count_comma {due : Bool} (h : Listing due items t) (hitems : ∀ x ∈ items, IsItem x) :
    t.count comma = (items.map (List.count comma)).sum + (items.length - if due then 0 else 1) +
      if t.lastMark? = some comma then 1 else 0 := by
  induction h with
  | stop hgap => simp [hgap.count_comma, hgap.lastMark?]
  | @item gap x tail items hgap h ih =>
    obtain ⟨hx, hitems⟩ := forall_mem_cons.mp hitems
    obtain ⟨c, hlast, hc⟩ := hx
    have hmark : lastMark? (gap ++ x ++ tail) = some comma ↔ tail.lastMark? = some comma := by
      cases htail : tail.lastMark? with
      | none => simp [lastMark?_append, htail, hlast, hc]
      | some d => simp [lastMark?_append, htail]
    have hrest := ih hitems
    simp only [count_append, hgap.count_comma, map_cons, sum_cons, length_cons, hmark]
    simp only [if_true] at hrest
    simp only [Bool.false_eq_true, if_false]
    omega
  | @separator gap rest items hgap h ih =>
    have hrest := ih hitems
    simp only [count_append, hgap.count_comma, count_cons_self]
    cases items with
    | nil =>
      -- The comma behind the last item.
      cases h with
      | stop hgap' =>
        have hmark : lastMark? (gap ++ comma :: rest) = some comma := by
          rw [← singleton_append, lastMark?_append, lastMark?_append, hgap'.lastMark?]
          rfl
        simp [hgap'.count_comma, hmark]
    | cons x items =>
      have hsome := h.isSome_lastMark? (hitems x mem_cons_self)
      obtain ⟨d, hd⟩ := isSome_iff_exists.mp hsome
      have hmark : lastMark? (gap ++ comma :: rest) = rest.lastMark? := by
        rw [← singleton_append, lastMark?_append, lastMark?_append, hd]
        rfl
      rw [hmark]
      simp only [length_cons, Bool.false_eq_true, if_false] at hrest
      simp only [length_cons, if_true]
      omega

end Listing

/-- **Two lists without a comma between them** are no list of their items, in whatever order.

**Proof sketch.** A list of all items has a comma more than the two lists together, whether or not there
is one behind the last item. -/
theorem not_commaList_of_unseparated {old : List Text} (hold : CommaList old t) (holdne : old ≠ [])
    (hnewne : new ≠ []) (hitems : ∀ x ∈ old ++ new, IsItem x) (hperm : items.Perm (old ++ new)) :
    ¬CommaList items (ofString " " ++ join ", " new ++ ofString " " ++ t) := by
  intro hall
  obtain ⟨holditems, hnewitems⟩ := forall_mem_append.mp hitems
  have hjoin : CommaList new (join ", " new) := by
    simpa using Listing.join_append isSpacing_nil (.stop isSpacing_nil) hnewne
  obtain ⟨c, hlast, hc⟩ := isItem_join hnewne hnewitems
  obtain ⟨x, old, rfl⟩ := exists_cons_of_ne_nil holdne
  obtain ⟨d, hd⟩ := isSome_iff_exists.mp (hold.isSome_lastMark? (holditems x mem_cons_self))
  have hmark : lastMark? (ofString " " ++ join ", " new ++ ofString " " ++ t) = t.lastMark? := by
    rw [lastMark?_append, hd]
    rfl
  have hcountNew := hjoin.count_comma hnewitems
  have hcountOld := hold.count_comma holditems
  have hcountAll := hall.count_comma fun y hy => hitems y (hperm.mem_iff.mp hy)
  have hsum := (hperm.map (List.count comma)).sum_nat
  have hlength := hperm.length_eq
  have hpos := length_pos_iff.mpr hnewne
  simp only [hlast, some.injEq, hc, if_false] at hcountNew
  simp only [count_append, isSpacing_blank.count_comma, hmark] at hcountAll
  simp only [map_append, sum_append] at hsum
  simp only [length_append, length_cons] at hlength hcountOld
  simp only [Bool.false_eq_true, if_false] at hcountAll hcountOld hcountNew
  omega

end Text

end Phrasebook
