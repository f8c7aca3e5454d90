import Mathlib.Algebra.Ring.Nat
import Phrasebook.Proofs.Edit.Outside
import Phrasebook.Proofs.Edit.Parts
import Phrasebook.Proofs.Edit.Refusal

/-!
# The order in which changes are listed

Changes may begin at the same offset, if all of them but one are empty. The check puts the empty ones
first. When changes are applied, those that begin at one offset are put in order by the positions that
they tell, and by the list if the positions are equal. So an empty change may be applied before the
one behind it, whose span is then looked for where the replacement of the empty one stands.

## Main results

* `Accepted.orderIrrelevant` — the order does not matter if the keys of accepted changes differ.
* `applyChanges_swallowed` — a change that is applied too late takes what an empty one has inserted.
* `applyChanges_order_irrelevant_iff` — when the order in which changes are listed does not matter.
-/

namespace Phrasebook

open List

variable {a b : Change} {changes : List Change} {cursor place : Nat} {t out u : Text}
  {splices : List Splice}

/-! ## Changes without their replacements -/

namespace Change

/-- A change with another replacement. -/
def withReplacement (c : Change) (text : Text) : Change := { c with replacement := text }

/-- A change without its replacement: its span, what it quotes, and the position that it tells. -/
def site (c : Change) : Change := c.withReplacement []

end Change

/-- The same changes with other replacements, in whatever order. -/
def SameSites (others changes : List Change) : Prop :=
  (others.map Change.site).Perm (changes.map Change.site)

namespace SameSites

variable {others changes : List Change}

lemma of_perm (h : others.Perm changes) : SameSites others changes := h.map Change.site

/-- Two changes of a list that are given replacements, listed before the others without theirs. -/
lemma of_two {rest : List Change} (hperm : changes.Perm (a :: b :: rest)) (x y : Text) :
    SameSites (a.withReplacement x :: b.withReplacement y :: rest.map Change.site) changes := by
  have hsites : (a.withReplacement x :: b.withReplacement y :: rest.map Change.site).map Change.site =
      (a :: b :: rest).map Change.site := by
    simp only [map_cons, map_map]
    rfl
  rw [SameSites, hsites]
  exact (of_perm hperm).symm

/-- What does not depend on replacements holds of the others. -/
lemma forall_mem (h : SameSites others changes) {P : Change → Prop} (hP : ∀ c, P c ↔ P c.site)
    (hall : ∀ c ∈ changes, P c) : ∀ c ∈ others, P c := by
  intro c hc
  obtain ⟨d, hd, hsite⟩ := mem_map.mp (h.mem_iff.mp (mem_map_of_mem hc))
  rw [hP, ← hsite, ← hP]
  exact hall d hd

/-- What does not depend on replacements holds between the others. -/
lemma pairwise (h : SameSites others changes) {R : Change → Change → Prop} (hsymm : ∀ {a b}, R a b → R b a)
    (hR : ∀ a b, R a b ↔ R a.site b.site) (hpair : changes.Pairwise R) : others.Pairwise R := by
  have hsites : (changes.map Change.site).Pairwise R :=
    pairwise_map.mpr (hpair.imp fun hab => (hR _ _).mp hab)
  exact (pairwise_map.mp (hsites.perm h.symm hsymm)).imp fun hab => (hR _ _).mpr hab

end SameSites

/-- **Accepted changes**: they have spans, quote the text and are apart. -/
structure Accepted (t : Text) (changes : List Change) : Prop where
  spans : ∀ c ∈ changes, c.HasSpan
  fits : ∀ c ∈ changes, Fits t c c.bounds
  apart : changes.Pairwise Change.Apart

namespace Accepted

variable {t : Text} {others changes : List Change}

lemma of_validate (hspans : ∀ c ∈ changes, c.HasSpan) (hvalid : validate t changes = .ok ()) :
    Accepted t changes :=
  have h := (validate_eq_ok_iff_apart hspans).mp hvalid
  ⟨hspans, h.1, h.2⟩

lemma validate (h : Accepted t changes) : validate t changes = .ok () :=
  (validate_eq_ok_iff_apart h.spans).mpr ⟨h.fits, h.apart⟩

/-- Changes are accepted whatever the replacements are. -/
lemma of_sameSites (h : Accepted t changes) (hsame : SameSites others changes) : Accepted t others :=
  ⟨hsame.forall_mem (fun _ => Iff.rfl) h.spans, hsame.forall_mem (fun _ => Iff.rfl) h.fits,
    hsame.pairwise Change.Apart.symm (fun _ _ => Iff.rfl) h.apart⟩

end Accepted

/-! ## The order of application -/

/-- A position before another. -/
def Position.Before (p q : Position) : Prop := p.line < q.line ∨ p.line = q.line ∧ p.column < q.column

instance (p q : Position) : Decidable (p.Before q) :=
  inferInstanceAs (Decidable (p.line < q.line ∨ p.line = q.line ∧ p.column < q.column))

namespace Change

/-- **A change that swallows another**: it begins at the same offset, is not empty, and may be applied
behind the other. -/
def Swallows (a b : Change) : Prop :=
  a.bounds.1 = b.bounds.1 ∧ a.bounds.1 < a.bounds.2 ∧ keysLe a.placeKey b.placeKey = true

/-- Changes of which neither swallows the other. -/
def Spares (a b : Change) : Prop := ¬a.Swallows b ∧ ¬b.Swallows a

lemma Spares.symm (h : a.Spares b) : b.Spares a := And.symm h

/-- Of two changes with equal keys that spare each other, both are empty. -/
lemma Spares.span_eq (h : a.Spares b) (hkeys : a.placeKey = b.placeKey) (hle : a.bounds.1 ≤ a.bounds.2) :
    a.splice.span = (a.bounds.1.toNat, a.bounds.1.toNat) := by
  have hstart : a.bounds.1 = b.bounds.1 := (List.cons.inj hkeys).1
  have hlt : ¬a.bounds.1 < a.bounds.2 := fun hlt => h.1 ⟨hstart, hlt, hkeys ▸ keysLe_refl _⟩
  rw [Splice.span, splice, le_antisymm (not_lt.mp hlt) hle]

/-- **A tie that is decided**: if two changes begin at one offset, one of them tells the lower position,
and that one is empty. -/
def TieDecided (a b : Change) : Prop :=
  a.bounds.1 = b.bounds.1 →
    (a.first.Before b.first ∧ a.bounds.1 = a.bounds.2) ∨
      (b.first.Before a.first ∧ b.bounds.1 = b.bounds.2)

instance (a b : Change) : Decidable (a.TieDecided b) :=
  inferInstanceAs (Decidable (a.bounds.1 = b.bounds.1 →
    (a.first.Before b.first ∧ a.bounds.1 = a.bounds.2) ∨
      (b.first.Before a.first ∧ b.bounds.1 = b.bounds.2)))

lemma TieDecided.symm (h : a.TieDecided b) : b.TieDecided a := fun heq =>
  (h heq.symm).symm

/-- The order in which changes that begin at one offset are applied. -/
lemma keysLe_placeKey_iff (h : a.bounds.1 = b.bounds.1) :
    keysLe a.placeKey b.placeKey ↔ ¬b.first.Before a.first := by
  simp only [placeKey, keysLe, h, if_true, Position.Before]
  split_ifs with hline hcolumn
  · simp [hline, hcolumn]
  · simp [hline]
  · simp only [decide_eq_true_eq]
    omega

/-- A tie is decided exactly if neither change swallows the other and their keys differ. -/
lemma tieDecided_iff (ha : a.bounds.1 ≤ a.bounds.2) (hb : b.bounds.1 ≤ b.bounds.2) :
    a.TieDecided b ↔ a.Spares b ∧ a.placeKey ≠ b.placeKey := by
  by_cases hstart : a.bounds.1 = b.bounds.1
  · have hkeys : a.placeKey = b.placeKey ↔ ¬a.first.Before b.first ∧ ¬b.first.Before a.first := by
      rw [← keysLe_placeKey_iff hstart, ← keysLe_placeKey_iff hstart.symm]
      constructor
      · intro h
        rw [h]
        exact ⟨keysLe_refl _, keysLe_refl _⟩
      · rintro ⟨hba, hab⟩
        exact keysLe_antisymm hab hba
    have hboth : ¬(a.first.Before b.first ∧ b.first.Before a.first) := by
      simp only [Position.Before]
      omega
    simp only [TieDecided, Spares, Swallows, keysLe_placeKey_iff hstart,
      keysLe_placeKey_iff hstart.symm, hstart, ne_eq, hkeys, true_implies, true_and]
    rw [hstart] at ha
    grind
  · have hne : a.placeKey ≠ b.placeKey := fun h => hstart (List.cons.inj h).1
    simp [TieDecided, Spares, Swallows, hstart, Ne.symm hstart, hne]

end Change

/-- Changes in the order in which they stand in the text. -/
def inTextOrder (changes : List Change) : List Change :=
  (sortDescending Change.placeKey changes).reverse

lemma inTextOrder_perm (changes : List Change) : (inTextOrder changes).Perm changes :=
  (reverse_perm _).trans (sortDescending_perm _ changes)

/-- Changes that precede each other are replacements that follow each other. -/
lemma follow_splices (hcursor : cursor ≤ t.length) (hfits : ∀ c ∈ changes, Fits t c c.bounds)
    (hstart : ∀ c ∈ changes, (cursor : Int) ≤ c.bounds.1) (hpair : changes.Pairwise Change.Precedes) :
    Follow Splice.span t.length cursor (changes.map Change.splice) := by
  induction changes generalizing cursor with
  | nil => exact hcursor
  | cons c rest ih =>
    obtain ⟨hfirst, hpair⟩ := pairwise_cons.mp hpair
    obtain ⟨-, hle, hlen, -⟩ := hfits c mem_cons_self
    have hc := hstart c mem_cons_self
    refine ⟨?_, ?_, ih ?_ (fun d hd => hfits d (mem_cons_of_mem c hd)) (fun d hd => ?_) hpair⟩
    · simp only [Splice.span, Change.splice]
      omega
    · simp only [Splice.span, Change.splice]
      omega
    · simp only [Splice.span, Change.splice]
      omega
    · have hd := hfirst d hd
      simp only [Change.Precedes] at hd
      simp only [Splice.span, Change.splice]
      omega

namespace Accepted

variable {t : Text} {changes : List Change}

/-- In text order, accepted changes follow each other. -/
lemma follow (h : Accepted t changes) {ordered : List Change} (hperm : ordered.Perm changes)
    (hpair : ordered.Pairwise Change.Precedes) :
    Follow Splice.span t.length 0 (ordered.map Change.splice) := by
  have hfits : ∀ c ∈ ordered, Fits t c c.bounds := fun c hc => h.fits c (hperm.mem_iff.mp hc)
  exact follow_splices (Nat.zero_le _) hfits (fun c hc => (hfits c hc).1) hpair

/-- Changes precede each other in the text if none swallows another. -/
lemma pairwise_precedes (h : Accepted t changes) (hfree : changes.Pairwise Change.Spares) :
    (inTextOrder changes).Pairwise Change.Precedes := by
  have hperm := inTextOrder_perm changes
  have hsorted : (inTextOrder changes).Pairwise fun a b => keysLe a.placeKey b.placeKey = true :=
    pairwise_reverse.mpr (pairwise_sortDescending Change.placeKey changes)
  have hapart := h.apart.perm hperm.symm Change.Apart.symm
  have hfree' := hfree.perm hperm.symm Change.Spares.symm
  refine (hsorted.and (hapart.and hfree')).imp ?_
  rintro a b ⟨hkeys, ⟨hoverlap, -⟩, hswallows, -⟩
  refine not_lt.mp fun hlt => ?_
  rcases (le_of_keysLe_cons hkeys).lt_or_eq with hstart | hstart
  · exact hoverlap ⟨.inl hstart, hlt⟩
  · exact hswallows ⟨hstart, hstart.trans_lt hlt, hkeys⟩

/-- **The result of changes of which none swallows another.** -/
theorem applyChanges_eq (h : Accepted t changes) (hfree : changes.Pairwise Change.Spares) :
    applyChanges t changes [] = .ok (patchFrom t 0 ((inTextOrder changes).map Change.splice), []) := by
  have hperm := inTextOrder_perm changes
  have hfold := foldlM_applyChange t [] (inTextOrder changes) 0
    (fun c hc => h.spans c (hperm.mem_iff.mp hc)) (h.follow hperm (h.pairwise_precedes hfree))
  rw [inTextOrder, reverse_reverse] at hfold
  rw [applyChanges_eq_foldlM h.spans h.validate, hfold]
  rfl

end Accepted

/-! ## Irrelevant order -/

/-- **A text that carries all changes**: it is the text with each span, in order, filled by its
replacement, by the code of it, or by that code with the comment behind it, and with the comments put in
that have moved. -/
def Carries (t : Text) (changes : List Change) (out : Text) : Prop :=
  ∃ (ordered : List Change) (kept : List Splice) (notes : List Text),
    ordered.Perm changes ∧ ordered.Pairwise Change.Precedes ∧
      Settled (ordered.map Change.splice) kept notes ∧ Interspersed notes (spliceFrom t 0 kept) out

/-- **Changes whose order is irrelevant**: in whatever order they are listed, they can be applied and
give one text, which carries all of them. -/
def OrderIrrelevant (t : Text) (changes : List Change) : Prop :=
  ∃ out, (∀ listed : List Change, listed.Perm changes → applyChanges t listed [] = .ok (out, [])) ∧
    Carries t changes out

/-- **The order does not matter if all ties are decided**: there is one way to sort the changes, and in
that order they precede each other. -/
theorem Accepted.orderIrrelevant (h : Accepted t changes) (hties : changes.Pairwise Change.TieDecided) :
    OrderIrrelevant t changes := by
  have hsplit : changes.Pairwise fun a b => a.Spares b ∧ a.placeKey ≠ b.placeKey :=
    hties.imp_of_mem fun {a b} ha hb hab =>
      (Change.tieDecided_iff (h.fits a ha).2.1 (h.fits b hb).2.1).mp hab
  have hfree := hsplit.imp And.left
  refine ⟨patchFrom t 0 ((inTextOrder changes).map Change.splice), fun listed hperm => ?_, ?_⟩
  · have hsame : inTextOrder listed = inTextOrder changes := by
      rw [inTextOrder, inTextOrder,
        sortDescending_eq_of_perm _ hperm.symm (hsplit.imp And.right)]
    rw [← hsame]
    exact (h.of_sameSites (.of_perm hperm)).applyChanges_eq (hfree.perm hperm.symm Change.Spares.symm)
  · obtain ⟨kept, notes, hsettled, hkept⟩ :=
      interspersed_patchFrom t ((inTextOrder changes).map Change.splice) 0
    exact ⟨_, kept, notes, inTextOrder_perm changes, h.pairwise_precedes hfree, hsettled, hkept⟩

/-! ## Changes without comments -/

/-- What fills the spans is the replacements themselves where no comment is split off. -/
lemma Settled.eq_spliceFrom {kept : List Splice} {notes : List Text}
    (h : Settled splices kept notes) (hout : Interspersed notes (spliceFrom t cursor kept) out)
    (hplain : ∀ s ∈ splices, splitLineComment s.text = none) : out = spliceFrom t cursor splices := by
  obtain ⟨rfl, rfl⟩ := h.eq_of_forall_none hplain
  exact hout.eq_of_nil

/-- Counting a character: what is in the spans goes, and what is in the replacements comes. -/
lemma count_spliceFrom (t : Text) (x : CodePoint) (h : Follow Splice.span t.length cursor splices) :
    (spliceFrom t cursor splices).count x
        + (splices.map fun s => (t.slice s.start s.stop).count x).sum =
      (t.drop cursor).count x + (splices.map fun s => s.text.count x).sum := by
  induction splices generalizing cursor with
  | nil => simp [spliceFrom]
  | cons s rest ih =>
    obtain ⟨hstart, hle, hrest⟩ := h
    simp only [Splice.span] at hstart hle hrest
    have hdrop : t.drop cursor = t.slice cursor s.start ++ (t.slice s.start s.stop ++ t.drop s.stop) := by
      rw [t.slice_append_drop hle, t.slice_append_drop hstart]
    have hih := ih hrest
    rw [hdrop]
    simp only [spliceFrom, map_cons, sum_cons, count_append]
    omega

/-- Counting a character in a text that carries changes without comments. -/
lemma Carries.count (h : Accepted t changes) (hplain : ∀ c ∈ changes, splitLineComment c.replacement = none)
    (hout : Carries t changes out) (x : CodePoint) :
    out.count x + (changes.map fun c => c.replaced.count x).sum =
      t.count x + (changes.map fun c => c.replacement.count x).sum := by
  obtain ⟨ordered, kept, notes, hperm, hpair, hsettled, hkept⟩ := hout
  have hsplices : ∀ s ∈ ordered.map Change.splice, splitLineComment s.text = none :=
    forall_mem_map.mpr fun c hc => hplain c (hperm.mem_iff.mp hc)
  have hcount := count_spliceFrom t x (h.follow hperm hpair)
  have hquoted : (ordered.map Change.splice).map (fun s => (t.slice s.start s.stop).count x) =
      ordered.map fun c => c.replaced.count x := by
    rw [map_map]
    refine map_congr_left fun c hc => ?_
    rw [← (h.fits c (hperm.mem_iff.mp hc)).2.2.2]
    rfl
  have hwritten : (ordered.map Change.splice).map (fun s => s.text.count x) =
      ordered.map fun c => c.replacement.count x := by
    rw [map_map]
    rfl
  rw [hquoted, hwritten, (hperm.map _).sum_nat, (hperm.map _).sum_nat, drop_zero] at hcount
  rw [hsettled.eq_spliceFrom hkept hsplices, hcount]

/-- A text with changes made one after the other. -/
def applyAll (changes : List Change) (t : Text) : Text :=
  changes.foldl (fun u c => c.splice.apply u) t

/-- Changes without comments are made one after the other. -/
lemma foldlM_applyChange_plain (hspans : ∀ c ∈ changes, c.HasSpan)
    (hplain : ∀ c ∈ changes, splitLineComment c.replacement = none) (t : Text) :
    changes.foldlM applyChange (t, []) = Except.ok (applyAll changes t, []) := by
  induction changes generalizing t with
  | nil => rfl
  | cons c rest ih =>
    have hstep : applyChange (t, []) c = .ok (c.splice.apply t, []) := by
      rw [applyChange_eq _ (hspans c mem_cons_self), planSplices,
        show splitLineComment c.splice.text = none from hplain c mem_cons_self]
      rfl
    rw [foldlM_cons, hstep]
    exact ih (fun d hd => hspans d (mem_cons_of_mem c hd))
      (fun d hd => hplain d (mem_cons_of_mem c hd)) _

/-! ## Ties that are not decided -/

/-- What stands before all changes is kept. -/
lemma le_length_applyAll (hu : place ≤ u.length) (h : ∀ c ∈ changes, place ≤ c.splice.start) :
    place ≤ (applyAll changes u).length := by
  induction changes generalizing u with
  | nil => exact hu
  | cons c rest ih =>
    have hstep : place ≤ (c.splice.apply u).length := by
      have hc := h c mem_cons_self
      simp only [Splice.apply, Text.splice, length_append, length_take]
      omega
    exact ih hstep fun d hd => h d (mem_cons_of_mem c hd)

lemma applyAll_eq_self (h : ∀ c ∈ changes, ∀ u, c.splice.apply u = u) (u : Text) :
    applyAll changes u = u := by
  induction changes with
  | nil => rfl
  | cons c rest ih =>
    rw [applyAll, foldl_cons, h c mem_cons_self]
    exact ih fun d hd => h d (mem_cons_of_mem c hd)

/-- An insertion that is deleted: if a span is emptied from the very place of an inserted character,
the character goes, whatever it is, and the last one of the span stays. -/
lemma Splice.apply_apply_insertion {stop : Nat} (hu : place ≤ u.length) (hlt : place < stop) (x : CodePoint) :
    Splice.apply ⟨place, stop, []⟩ (Splice.apply ⟨place, place, [x]⟩ u) =
      u.take place ++ u.drop (stop - 1) := by
  have hlen : (u.take place).length = place := length_take_of_le hu
  obtain ⟨more, rfl⟩ := Nat.exists_eq_add_of_lt hlt
  have hdrop : (u.take place ++ [x] ++ u.drop place).drop (place + more + 1) = u.drop (place + more) := by
    rw [append_assoc, drop_append, hlen, drop_eq_nil_of_le (by omega),
      show place + more + 1 - place = more + 1 by omega]
    simp
  have htake : (u.take place ++ [x] ++ u.drop place).take place = u.take place := by
    rw [append_assoc]
    exact take_left' hlen
  simp only [Splice.apply, Text.splice, hdrop, htake, append_nil]
  rfl

lemma exists_perm_of_subperm {α : Type} {a b : α} {l : List α} (h : [a, b].Subperm l) :
    ∃ rest, l.Perm (a :: b :: rest) := by
  obtain ⟨pair, hperm, hsub⟩ := h
  obtain ⟨rest, hrest⟩ := hsub.exists_perm_append
  exact ⟨rest, hrest.trans (hperm.append_right rest)⟩

section Swallowed

variable {t : Text} {a b : Change} {rest : List Change} (h : Accepted t (b :: a :: rest))
  (hswallow : a.Swallows b)

include h hswallow

/-- How changes are applied around a swallowed one, whatever it inserts: before it come changes that do
not begin before it, and between it and the one that swallows it only empty ones at the same offset. -/
lemma exists_sorted_around_swallowed :
    ∃ front between back : List Change,
      (∀ text, sortDescending Change.placeKey (b.withReplacement text :: a :: rest) =
        front ++ b.withReplacement text :: (between ++ a :: back)) ∧
      (∀ c ∈ front, b.bounds.1 ≤ c.bounds.1) ∧
      ∀ c ∈ between, c ∈ rest ∧ c.bounds = (b.bounds.1, b.bounds.1) := by
  obtain ⟨hstart, hlt, hkeys⟩ := hswallow
  set sorted := sortDescending Change.placeKey (a :: rest) with hsorted
  set front := sorted.takeWhile fun c => !keysLe c.placeKey b.placeKey with hfront
  set behind := sorted.dropWhile fun c => !keysLe c.placeKey b.placeKey with hbehind
  have hinsert : ∀ text, sortDescending Change.placeKey (b.withReplacement text :: a :: rest) =
      front ++ b.withReplacement text :: behind :=
    fun text => insertSorted_eq_append _ (b.withReplacement text) sorted
  have hall : sorted = front ++ behind := takeWhile_append_dropWhile.symm
  have hmem : a ∈ behind := by
    have hsome : a ∈ front ++ behind := hall ▸ (sortDescending_perm _ _).mem_iff.mpr mem_cons_self
    refine (mem_append.mp hsome).resolve_left fun hmem => ?_
    simpa [hkeys] using mem_takeWhile_imp hmem
  obtain ⟨between, back, hback⟩ := append_of_mem hmem
  rw [hback] at hinsert hall
  have hperm := sortDescending_perm Change.placeKey (b.withReplacement b.replacement :: a :: rest)
  have horder := pairwise_sortDescending Change.placeKey (b.withReplacement b.replacement :: a :: rest)
  rw [hinsert] at hperm horder
  obtain ⟨-, hlater, hbefore⟩ := pairwise_append.mp horder
  refine ⟨front, between, back, hinsert, ?_, ?_⟩
  · exact fun c hc => le_of_keysLe_cons (hbefore c hc _ mem_cons_self)
  · intro c hc
    obtain ⟨hbelow, htail⟩ := pairwise_cons.mp hlater
    have hlow : a.bounds.1 ≤ c.bounds.1 :=
      le_of_keysLe_cons ((pairwise_append.mp htail).2.2 c hc a mem_cons_self)
    have hhigh : c.bounds.1 ≤ b.bounds.1 := le_of_keysLe_cons (hbelow c (mem_append_left _ hc))
    -- The one that swallows is not empty, so what begins with it is.
    have hapart := h.apart.perm hperm.symm Change.Apart.symm
    have hca : c.Apart a := by
      have hlater' := (pairwise_cons.mp (pairwise_append.mp hapart).2.1).2
      exact (pairwise_append.mp hlater').2.2 c hc a mem_cons_self
    have hle := (h.fits c (hperm.mem_iff.mp (by simp [hc]))).2.1
    have hempty : c.bounds.1 = b.bounds.1 ∧ c.bounds.2 = b.bounds.1 := by
      simp only [Change.Apart, Change.Overlaps] at hca
      omega
    have hsome : c ∈ sorted := by simp [hall, hc]
    refine ⟨(mem_cons.mp ((sortDescending_perm _ _).mem_iff.mp hsome)).resolve_left ?_,
      Prod.ext hempty.1 hempty.2⟩
    rintro rfl
    omega

/-- **A replacement of which nothing is left.** If a change swallows an empty one, then whichever character
the empty one inserts, the result is the same.

**Proof sketch.** The empty change is applied first, and what is applied between the two inserts nothing.
Then the other one takes the inserted character for the first of its span
(`Splice.apply_apply_insertion`). -/
theorem applyChanges_swallowed (ha : a.replacement = []) (hrest : ∀ c ∈ rest, c.replacement = []) :
    ∃ out, ∀ x : CodePoint, splitLineComment [x] = none →
      applyChanges t (b.withReplacement [x] :: a :: rest) [] = .ok (out, []) := by
  obtain ⟨front, between, back, hsorted, hfront, hbetween⟩ := exists_sorted_around_swallowed h hswallow
  obtain ⟨hstart, hlt, -⟩ := hswallow
  obtain ⟨hnonneg, hle, hlen, -⟩ := h.fits b mem_cons_self
  set place := b.bounds.1.toNat with hplace
  have hkept : place ≤ (applyAll front t).length :=
    le_length_applyAll (by omega) fun c hc => Int.toNat_le_toNat (hfront c hc)
  have hnothing : ∀ u : Text, applyAll between u = u := by
    refine applyAll_eq_self fun c hc u => ?_
    obtain ⟨hmem, hbounds⟩ := hbetween c hc
    simp [Change.splice, hbounds, hrest c hmem, Splice.apply, Text.splice]
  refine ⟨applyAll back ((applyAll front t).take place
    ++ (applyAll front t).drop (a.bounds.2.toNat - 1)), fun x hx => ?_⟩
  have hplain : ∀ c ∈ b.withReplacement [x] :: a :: rest, splitLineComment c.replacement = none := by
    have hnil : splitLineComment [] = none := rfl
    simp only [forall_mem_cons]
    exact ⟨hx, by rw [ha, hnil], fun c hc => by rw [hrest c hc, hnil]⟩
  have hx' : Accepted t (b.withReplacement [x] :: a :: rest) := h.of_sameSites (List.Perm.refl _)
  have hperm := sortDescending_perm Change.placeKey (b.withReplacement [x] :: a :: rest)
  rw [applyChanges_eq_foldlM hx'.spans hx'.validate,
    foldlM_applyChange_plain (fun c hc => hx'.spans c (hperm.mem_iff.mp hc))
      (fun c hc => hplain c (hperm.mem_iff.mp hc)), hsorted]
  have hempty : b.bounds.2 = b.bounds.1 := by
    have hba := (pairwise_cons.mp h.apart).1 a mem_cons_self
    simp only [Change.Apart, Change.Overlaps] at hba
    omega
  have hinsertion : (b.withReplacement [x]).splice = ⟨place, place, [x]⟩ := by
    show Splice.mk b.bounds.1.toNat b.bounds.2.toNat [x] = _
    rw [hempty]
  have hdeletion : a.splice = ⟨place, a.bounds.2.toNat, []⟩ := by rw [Change.splice, hstart, ha]
  have hspan : place < a.bounds.2.toNat := by omega
  have hdeleted := Splice.apply_apply_insertion hkept hspan x
  rw [← hinsertion, ← hdeletion] at hdeleted
  rw [← hdeleted, applyAll, foldl_append, foldl_cons, foldl_append, foldl_cons,
    ← applyAll, ← applyAll, ← applyAll, hnothing]

end Swallowed

/-- Empty changes side by side: what is applied first comes last. -/
lemma applyChanges_side_by_side {listed front back : List Change} {x y : Change} (h : Accepted t listed)
    (hfree : listed.Pairwise Change.Spares) (hplain : ∀ c ∈ listed, splitLineComment c.replacement = none)
    (hsorted : sortDescending Change.placeKey listed = front ++ x :: y :: back)
    (hx : x.splice.span = (place, place)) (hy : y.splice.span = (place, place)) :
    applyChanges t listed [] = .ok (spliceFrom (t.take place) 0 (back.reverse.map Change.splice)
      ++ (y.replacement ++ (x.replacement ++ spliceFrom t place (front.reverse.map Change.splice))), []) := by
  have hperm := inTextOrder_perm listed
  have hfollow := h.follow hperm (h.pairwise_precedes hfree)
  have hsplices : ∀ s ∈ (inTextOrder listed).map Change.splice, splitLineComment s.text = none :=
    forall_mem_map.mpr fun c hc => hplain c (hperm.mem_iff.mp hc)
  obtain ⟨kept, notes, hsettled, hkept⟩ :=
    interspersed_patchFrom t ((inTextOrder listed).map Change.splice) 0
  have horder : (inTextOrder listed).map Change.splice =
      back.reverse.map Change.splice ++ y.splice :: x.splice :: front.reverse.map Change.splice := by
    simp [inTextOrder, hsorted]
  obtain ⟨hxstart, hxstop⟩ := Prod.mk.inj hx
  obtain ⟨hystart, hystop⟩ := Prod.mk.inj hy
  rw [h.applyChanges_eq hfree, hsettled.eq_spliceFrom hkept hsplices]
  rw [horder] at hfollow ⊢
  rw [spliceFrom_split hfollow, spliceFrom, hxstart, hxstop, hystart, hystop]
  simp [Text.slice, Change.splice]

section Undecided

variable {t : Text} {changes : List Change} (h : Accepted t changes) {a b : Change}
  (hpair : [a, b].Subperm changes)

include h hpair

/-- A change that swallows another breaks the order: for one of two characters, what the swallowed change
inserts is not in the result. -/
lemma not_orderIrrelevant_of_swallows (hswallow : a.Swallows b) :
    ∃ others, SameSites others changes ∧ ¬OrderIrrelevant t others := by
  obtain ⟨rest, hperm⟩ := exists_perm_of_subperm ((List.Perm.swap a b []).subperm.trans hpair)
  by_contra hall
  push Not at hall
  have hsame : ∀ text, SameSites (b.withReplacement text :: a.site :: rest.map Change.site) changes :=
    fun text => .of_two hperm text []
  have hempty : ∀ c ∈ rest.map Change.site, c.replacement = [] :=
    forall_mem_map.mpr fun _ _ => rfl
  obtain ⟨out, hout⟩ := applyChanges_swallowed (h.of_sameSites (hsame b.replacement))
    (show a.site.Swallows b from hswallow) rfl hempty
  -- The one result would have to hold the inserted character, whichever that is.
  have hcount : ∀ x : CodePoint, splitLineComment [x] = none → ∀ y : CodePoint,
      out.count y + ((b :: a.site :: rest.map Change.site).map fun c => c.replaced.count y).sum =
        t.count y + ([x].count y
          + ((a.site :: rest.map Change.site).map fun c => c.replacement.count y).sum) := by
    intro x hx y
    obtain ⟨out', hlisted, hcarries⟩ := hall _ (hsame [x])
    have hresult := (hout x hx).symm.trans (hlisted _ (List.Perm.refl _))
    obtain ⟨rfl, -⟩ := Prod.mk.inj (Except.ok.inj hresult)
    refine hcarries.count (h.of_sameSites (hsame [x])) ?_ y
    have hnil : splitLineComment [] = none := rfl
    simp only [forall_mem_cons]
    exact ⟨hx, hnil, fun c hc => by rw [hempty c hc, hnil]⟩
  have hone := hcount 'a' rfl 'a'
  have hnone := hcount 'b' rfl 'a'
  rw [hnone] at hone
  simp at hone

/-- Empty changes with equal keys break the order: what is listed first comes last. -/
lemma not_orderIrrelevant_of_placeKey_eq (hfree : changes.Pairwise Change.Spares)
    (hkeys : a.placeKey = b.placeKey) :
    ∃ others, SameSites others changes ∧ ¬OrderIrrelevant t others := by
  obtain ⟨rest, hperm⟩ := exists_perm_of_subperm hpair
  set a' := a.withReplacement "a" with ha'
  set b' := b.withReplacement "b" with hb'
  set others := a' :: b' :: rest.map Change.site with hothers
  have hsame : SameSites others changes := .of_two hperm "a" "b"
  have haccepted := h.of_sameSites hsame
  have hfree' := hsame.pairwise (R := Change.Spares) Change.Spares.symm (fun _ _ => Iff.rfl) hfree
  have hswap : (b' :: a' :: rest.map Change.site).Perm others := List.Perm.swap a' b' _
  have htie : ∀ c : Change, keysLe c.placeKey a'.placeKey = keysLe c.placeKey b'.placeKey :=
    fun c => congrArg (keysLe c.placeKey) hkeys
  obtain ⟨front, back, hfirst, hsecond⟩ := insertSorted_insertSorted
    (fun c d : Change => keysLe d.placeKey c.placeKey) htie (keysLe_refl _) (keysLe_refl _)
    (sortDescending Change.placeKey (rest.map Change.site))
  have hplain : ∀ c ∈ others, splitLineComment c.replacement = none := by
    simp only [hothers, forall_mem_cons]
    exact ⟨rfl, rfl, forall_mem_map.mpr fun _ _ => rfl⟩
  have hspares : a'.Spares b' := (pairwise_cons.mp hfree').1 b' mem_cons_self
  have hspanA := hspares.span_eq hkeys (haccepted.fits a' mem_cons_self).2.1
  have hspanB := hspares.symm.span_eq hkeys.symm
    (haccepted.fits b' (mem_cons_of_mem a' mem_cons_self)).2.1
  rw [show b'.bounds.1 = a'.bounds.1 from (List.cons.inj hkeys.symm).1] at hspanB
  refine ⟨others, hsame, ?_⟩
  rintro ⟨out, hlisted, -⟩
  have hone := applyChanges_side_by_side haccepted hfree' hplain hfirst hspanA hspanB
  have htwo := applyChanges_side_by_side (haccepted.of_sameSites (.of_perm hswap))
    (hfree'.perm hswap.symm Change.Spares.symm) (fun c hc => hplain c (hswap.mem_iff.mp hc)) hsecond
    hspanB hspanA
  rw [hlisted _ (List.Perm.refl _)] at hone
  rw [hlisted _ hswap] at htwo
  have heq := (Prod.mk.inj (Except.ok.inj (hone.symm.trans htwo))).1
  have hhead := append_cancel_left heq
  exact absurd (List.cons.inj hhead).1 (by decide)

end Undecided

/-- **Whatever the replacements, the order of the list is irrelevant exactly if all ties are decided.**
Accepted changes with spans, empty or not, give the same text in whatever order they are listed, and that
text carries all of them, if of any two that begin at one offset the one that tells the lower position
is empty. If that is not so, there are replacements for which the text depends on the order or does not
carry them.

**Proof sketch.** If all ties are decided, the keys differ and no change swallows another, so
`Accepted.orderIrrelevant` applies. Otherwise some change swallows an empty one, which loses what it
inserts, or two empty ones have the same key, and are applied in the order of the list. -/
theorem applyChanges_order_irrelevant_iff (t : Text) (changes : List Change)
    (hspans : ∀ c ∈ changes, c.HasSpan) (hvalid : validate t changes = .ok ()) :
    (∀ others, SameSites others changes → OrderIrrelevant t others) ↔
      changes.Pairwise Change.TieDecided := by
  have h := Accepted.of_validate hspans hvalid
  constructor
  · intro hall
    have hno : ¬∃ others, SameSites others changes ∧ ¬OrderIrrelevant t others := by
      rintro ⟨others, hsame, hnot⟩
      exact hnot (hall others hsame)
    have hfree : changes.Pairwise Change.Spares := by
      rw [pairwise_iff_forall_subperm Change.Spares.symm]
      intro a b hpair
      exact ⟨fun hswallow => hno (not_orderIrrelevant_of_swallows h hpair hswallow), fun hswallow =>
        hno (not_orderIrrelevant_of_swallows h ((List.Perm.swap a b []).subperm.trans hpair) hswallow)⟩
    rw [pairwise_iff_forall_subperm Change.TieDecided.symm]
    intro a b hpair
    have ha := (h.fits a (hpair.subset mem_cons_self)).2.1
    have hb := (h.fits b (hpair.subset (mem_cons_of_mem a mem_cons_self))).2.1
    rw [Change.tieDecided_iff ha hb]
    exact ⟨(pairwise_iff_forall_subperm Change.Spares.symm).mp hfree a b hpair, fun hkeys =>
      hno (not_orderIrrelevant_of_placeKey_eq h hpair hfree hkeys)⟩
  · intro hties others hsame
    exact (h.of_sameSites hsame).orderIrrelevant
      (hsame.pairwise (R := Change.TieDecided) Change.TieDecided.symm (fun _ _ => Iff.rfl) hties)

/-- An insertion at the beginning of a span. If it is listed first, it is lost and the last character of
the span stays. -/
theorem applyChanges_order_irrelevant_iff_insertion :
    let t : Text := "abc"
    let changes := [Change.make t "f.js" 0 0 "X", Change.make t "f.js" 0 3 "Y"]
    (∀ c ∈ changes, c.HasSpan) ∧ validate t changes = .ok () ∧
      applyChanges t changes [] = .ok ("Yc", []) ∧ applyChanges t changes.reverse [] = .ok ("XY", []) ∧
      ¬∀ others, SameSites others changes → OrderIrrelevant t others := by
  intro t changes
  have hspans : ∀ c ∈ changes, c.HasSpan := by
    simp only [changes, forall_mem_cons, not_mem_nil, false_imp_iff, implies_true, and_true]
    exact ⟨⟨0, 0, rfl, rfl⟩, ⟨0, 3, rfl, rfl⟩⟩
  have hvalid : validate t changes = .ok () := by rfl
  refine ⟨hspans, hvalid, by rfl, by rfl, fun hall => ?_⟩
  have hties := (applyChanges_order_irrelevant_iff t changes hspans hvalid).mp hall
  exact absurd hties (by decide)

end Phrasebook
