import Phrasebook.Proofs.Edit.Parts
import Phrasebook.Proofs.Pattern.Hits
import Phrasebook.Proofs.Site.Collect
import Phrasebook.Proofs.Text.Slice
import Phrasebook.Proofs.Tree.Nesting

/-!
# The outermost edits do not overlap

Sites nest: a template literal may have others in its substitutions. Their nodes are a laminar
family, so once the edits are in order, each of them lies inside the last one that was kept or behind
it. No site is empty: a phrase that gets a key is not, it stands in what is inside of the literal, and a
template literal has its backticks.

## Main results

* `pairwise_outermost` — the outermost edits follow each other.
* `Extractor.runs_collect_of_nested` — so do the changes of a text with a well-formed tree.
-/

namespace Phrasebook

open List

variable {edits : List PendingEdit}

/-! ## Edits -/

/-- Spans of which the later one lies inside the other or behind it. -/
def Apart (a b : Nat × Nat) : Prop := (a.1 ≤ b.1 ∧ b.2 ≤ a.2) ∨ a.2 ≤ b.1

/-- Edits that lie inside each other or one behind the other, in one order or the other. -/
def ApartEither (a b : PendingEdit) : Prop := Apart a.span b.span ∨ Apart b.span a.span

/-- The order of edits: where they begin, and then the longer one first. -/
lemma PendingEdit.of_keysLe {a b : PendingEdit} (h : keysLe a.orderKey b.orderKey) :
    a.start < b.start ∨ (a.start = b.start ∧ b.stop ≤ a.stop) := by
  simp only [orderKey, keysLe] at h
  split_ifs at h with hstart hstop
  · exact .inr ⟨by omega, by omega⟩
  · have hle : (-(a.stop : Int)) ≤ -b.stop := by simpa using h
    exact .inr ⟨by omega, by omega⟩
  · have hle : (a.start : Int) ≤ b.start := by simpa using h
    exact .inl (by omega)

/-- Edits in order lie inside earlier ones or behind them, if they do so in one order or the
other. -/
lemma pairwise_sorted_edits (hapart : (edits.map PendingEdit.span).Pairwise Apart)
    (hlt : ∀ e ∈ edits, e.start < e.stop) :
    (sortAscending PendingEdit.orderKey edits).Pairwise fun a b => Apart a.span b.span := by
  have heither : edits.Pairwise ApartEither := (pairwise_map.mp hapart).imp .inl
  have hperm := sortAscending_perm PendingEdit.orderKey edits
  have hsorted := pairwise_sortAscending PendingEdit.orderKey edits
  refine ((heither.perm hperm.symm Or.symm).and hsorted).imp_of_mem ?_
  rintro a b ha hb ⟨hab | hba, hle⟩
  · exact hab
  · have hkeys := PendingEdit.of_keysLe hle
    have hlt' := hlt b (hperm.mem_iff.mp hb)
    simp only [Apart, PendingEdit.span] at hba ⊢
    omega

/-- **What is left when nested edits are dropped** follows each other and the last one that was kept.

**Proof sketch.** Induction on the edits in order. An edit that is not dropped lies behind the last
one that was kept, and all later ones lie inside it or behind it. -/
theorem pairwise_dropNested {l : List PendingEdit} {last : Option PendingEdit}
    (hapart : l.Pairwise fun a b => Apart a.span b.span)
    (hlast : ∀ k ∈ last, ∀ e ∈ l, Apart k.span e.span) (hlt : ∀ e ∈ l, e.start < e.stop) :
    (dropNested last l).Pairwise (fun a b => a.stop ≤ b.start) ∧
      ∀ e ∈ dropNested last l, e ∈ l ∧ ∀ k ∈ last, k.stop ≤ e.start := by
  induction l generalizing last with
  | nil => simp [dropNested]
  | cons e rest ih =>
    obtain ⟨hnext, hapart'⟩ := pairwise_cons.mp hapart
    have hlt' : ∀ e ∈ rest, e.start < e.stop := fun x hx => hlt x (mem_cons_of_mem e hx)
    rw [dropNested]
    split_ifs with hnested
    · obtain ⟨hpair, hmem⟩ := ih hapart' (fun k hk x hx => hlast k hk x (mem_cons_of_mem e hx)) hlt'
      exact ⟨hpair, fun x hx => ⟨mem_cons_of_mem e (hmem x hx).1, (hmem x hx).2⟩⟩
    · -- the edit is kept, so it does not lie inside the last one
      have hbehind : ∀ k ∈ last, k.stop ≤ e.start := by
        rintro k rfl
        rcases hlast k rfl e mem_cons_self with hinside | hbehind
        · simp only [PendingEdit.span] at hinside
          simp [PendingEdit.within, hinside] at hnested
        · exact hbehind
      have hkept : ∀ k ∈ some e, ∀ x ∈ rest, Apart k.span x.span := by
        rintro k ⟨⟩ x hx
        exact hnext x hx
      obtain ⟨hpair, hmem⟩ := ih hapart' hkept hlt'
      refine ⟨pairwise_cons.mpr ⟨fun x hx => (hmem x hx).2 e rfl, hpair⟩, ?_⟩
      intro x hx
      rcases mem_cons.mp hx with rfl | hx
      · exact ⟨mem_cons_self, hbehind⟩
      · refine ⟨mem_cons_of_mem e (hmem x hx).1, fun k hk => ?_⟩
        have h₁ := hbehind k hk
        have h₂ := (hmem x hx).2 e rfl
        have h₃ := hlt e mem_cons_self
        omega

/-- Edits that are dropped lie inside one that is kept. -/
lemma exists_dropNested_within {l : List PendingEdit} {last : Option PendingEdit} {e : PendingEdit}
    (he : e ∈ l) :
    (∃ k ∈ last, e.within k.start k.stop) ∨
      ∃ k ∈ dropNested last l, e.within k.start k.stop := by
  induction l generalizing last with
  | nil => cases he
  | cons x rest ih =>
    rw [dropNested]
    split_ifs with hnested
    · rcases mem_cons.mp he with rfl | he
      · cases last with
        | none => cases hnested
        | some k => exact .inl ⟨k, rfl, hnested⟩
      · exact ih he
    · rcases mem_cons.mp he with rfl | he
      · exact .inr ⟨e, mem_cons_self, by simp [PendingEdit.within]⟩
      · rcases @ih (some x) he with ⟨k, ⟨⟩, hk⟩ | ⟨k, hk, hwithin⟩
        · exact .inr ⟨x, mem_cons_self, hk⟩
        · exact .inr ⟨k, mem_cons_of_mem x hk, hwithin⟩

/-- Every edit lies inside an outermost one. -/
lemma exists_outermost_within {e : PendingEdit} (he : e ∈ edits) :
    ∃ k ∈ outermost edits, e.within k.start k.stop := by
  have he' := (sortAscending_perm PendingEdit.orderKey edits).mem_iff.mpr he
  simpa [outermost] using @exists_dropNested_within _ none _ he'

/-- **The outermost edits follow each other.** -/
theorem pairwise_outermost (hapart : (edits.map PendingEdit.span).Pairwise Apart)
    (hlt : ∀ e ∈ edits, e.start < e.stop) :
    (outermost edits).Pairwise (fun a b => a.stop ≤ b.start) ∧ ∀ e ∈ outermost edits, e ∈ edits := by
  have hperm := sortAscending_perm PendingEdit.orderKey edits
  have hnone : ∀ k ∈ (none : Option PendingEdit),
      ∀ e ∈ sortAscending PendingEdit.orderKey edits, Apart k.span e.span := by simp
  obtain ⟨hpair, hmem⟩ := pairwise_dropNested (pairwise_sorted_edits hapart hlt) hnone
    fun e he => hlt e (hperm.mem_iff.mp he)
  exact ⟨hpair, fun e he => hperm.mem_iff.mp (hmem e he).1⟩

/-! ## Sites -/

/-- A text in which a marked phrase stands is not empty. -/
lemma Delimiter.length_pos_of_marked (d : Delimiter) {t : Text}
    (h : ∃ p ∈ d.phrases t, (d.phrase? p.full).isSome) : 0 < t.length := by
  obtain ⟨p, hp, hmarked⟩ := h
  have hlt := d.lt_of_marked hp hmarked
  have hstop := (d.mem_phrases hp).1
  omega

/-- The literal of a string with a marked phrase: there is something between its quotes. -/
lemma Literal.inside_pos_of_ofString {t : Text} {c : Cursor} {literal : Literal} {d : Delimiter}
    (h : Literal.ofString t c = .ok literal) (hphrase : ∃ p ∈ literal.phrases d, (d.phrase? p.full).isSome) :
    0 < (c.node.inside t).length := by
  simp only [Literal.ofString] at h
  split_ifs at h
  · obtain rfl := Except.ok.inj h
    exact d.length_pos_of_marked hphrase
  · obtain ⟨decoded, hdecoded, rfl⟩ := exists_ok_of_map h
    have hpos : 0 < decoded.text.length := d.length_pos_of_marked hphrase
    have hdecoded' := eq_ok_of_mapError hdecoded
    rw [length_pos_iff]
    intro hnil
    rw [hnil] at hdecoded'
    obtain rfl : [] = decoded := Except.ok.inj hdecoded'
    exact absurd hpos (lt_irrefl 0)

/-- **No site is empty.** -/
theorem Site.IsFound.lt {e : Extractor} {callNames : List Text} {s : Site} {valid : Nat → Prop}
    (h : s.IsFound e callNames) (hnested : s.cursor.node.Nested valid) : s.span.1 < s.span.2 := by
  obtain ⟨hliteral, hphrase⟩ := h
  rw [Literal.ofCursor] at hliteral
  show s.cursor.node.start < s.cursor.node.stop
  split at hliteral
  · -- a string
    split_ifs at hliteral
    · cases hliteral
    · obtain ⟨literal, hstring, hsome⟩ := exists_ok_of_map hliteral
      obtain rfl := Option.some.inj hsome
      have hpos := Literal.inside_pos_of_ofString hstring hphrase
      rw [Node.inside, Text.length_slice] at hpos
      omega
  · -- a template literal
    rename_i hkind
    exact hnested.lt_of_template hkind
  · -- a piece of text in markup
    have hmarkup : Literal.markup (s.cursor.node.text e.text) = s.literal :=
      Option.some.inj (Except.ok.inj hliteral)
    rw [← hmarkup] at hphrase
    have hpos : 0 < (s.cursor.node.text e.text).length := e.delimiter.length_pos_of_marked hphrase
    rw [Node.text, Text.length_slice] at hpos
    omega
  · cases hliteral

/-! ## Changes -/

namespace Extractor

variable (e : Extractor)

/-- **The changes of a text with a well-formed tree** are changes of parts of it that follow each
other. -/
theorem runs_collect_of_nested {scope : Scope} {root : Node} {c : Collected} {l l' : Ledger}
    (hroot : root.Nested (· ≤ e.text.length)) (h : Runs (e.collect scope root) l c l') :
    (∀ change ∈ c.changes, change.IsPart e.text 0 e.text.length) ∧
      c.changes.Pairwise Change.Precedes := by
  obtain ⟨sites, hsites, rfl⟩ := runs_collect h
  obtain ⟨hsub, hfound, -⟩ := e.runs_resolveAll hsites
  have hspans := span_survey ⟨e.text, e.options, scope⟩ sites {}
  simp only [settle]
  set edits := (sites.foldl (Survey.visit ⟨e.text, e.options, scope⟩) {}).edits
  rw [show ({} : Survey).edits = [] from rfl, map_nil, nil_append] at hspans
  -- sites are nodes of the tree, so they are laminar and lie in the text
  have hnode : ∀ s ∈ sites, s.cursor.node.Nested (· ≤ e.text.length) := fun s hs =>
    (hroot.of_mem_walk (hsub.subset (mem_map_of_mem hs))).2
  have hapart : (edits.map PendingEdit.span).Pairwise Apart := by
    have hlaminar := pairwise_map.mp (hroot.pairwise_cursors.sublist hsub)
    rw [hspans]
    exact pairwise_map.mpr hlaminar
  have hedit : ∀ p ∈ edits, p.start < p.stop ∧ p.stop ≤ e.text.length := by
    intro p hp
    have hmem : p.span ∈ sites.map Site.span := hspans ▸ mem_map_of_mem hp
    obtain ⟨s, hs, hspan⟩ := mem_map.mp hmem
    have hlt := (hfound s hs).lt (hnode s hs)
    have hstop : s.span.2 ≤ e.text.length := (hnode s hs).valid_stop
    rw [hspan] at hlt hstop
    exact ⟨hlt, hstop⟩
  obtain ⟨hpair, hmem⟩ := pairwise_outermost hapart fun p hp => (hedit p hp).1
  refine ⟨?_, ?_⟩
  · intro change hchange
    obtain ⟨p, hp, rfl⟩ := mem_map.mp hchange
    have hp' := hedit p (hmem p hp)
    exact ⟨_, _, _, _, rfl, Nat.zero_le _, hp'.1, hp'.2⟩
  · refine pairwise_map.mpr (hpair.imp ?_)
    intro a b hab
    exact Int.ofNat_le.mpr hab

end Extractor

end Phrasebook
