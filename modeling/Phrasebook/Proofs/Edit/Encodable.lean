import Phrasebook.Edit.Insertion
import Phrasebook.Proofs.Edit.Weave
import Phrasebook.Proofs.Message.Encodable

/-!
# Edits that can be written out

Line comments that are moved, or turned into block comments, make no difference.

## Main results

* `isEncodable_applyChanges`, `isEncodable_applyInsertions`, `isEncodable_spliceFrom` — a text into which
  replacements are put can be written out if it could before, and if the replacements can.
-/

namespace Phrasebook

open List Text

variable {changes : List Change} {out t : Text} {splices : List Splice} {state : Text × List Int}

/-- **What each step keeps, all of them keep.** -/
theorem foldlM_keeps {σ α ε : Type} {P : σ → Prop} {step : σ → α → Except ε σ} {xs : List α}
    (hstep : ∀ s, ∀ a ∈ xs, ∀ s', P s → step s a = .ok s' → P s') {s s' : σ} (hs : P s)
    (h : xs.foldlM step s = .ok s') : P s' := by
  induction xs generalizing s with
  | nil =>
    cases h
    exact hs
  | cons a rest ih =>
    rw [foldlM_cons] at h
    obtain ⟨m, hm, h⟩ := exists_ok_of_bind h
    exact ih (fun s b hb => hstep s b (mem_cons_of_mem a hb))
      (hstep s a mem_cons_self m hs hm) h

/-! ## Changes -/

/-- Code and a line comment that are split come from the text. -/
lemma isEncodable_of_splitCommentFrom {before code comment : Text} {quote : Option CodePoint}
    {skip : Nat} (h : splitCommentFrom before quote skip t = some (code, comment))
    (hbefore : before.isEncodable) (ht : t.isEncodable) :
    code.isEncodable ∧ comment.isEncodable := by
  fun_induction splitCommentFrom before quote skip t with
  | case9 before c rest hquote hblock hslashes comment' hone =>
    obtain ⟨rfl, rfl⟩ := Prod.mk.inj (Option.some.inj h)
    refine ⟨isEncodable_trimRightWhile ?_ _, isEncodable_trimRightWhile ht _⟩
    exact isEncodable_of_subset (fun d hd => mem_reverse.mp hd) hbefore
  | _ => simp_all

lemma isEncodable_of_mem_planSplices {replacement : Text} {start stop : Nat}
    (hreplacement : replacement.isEncodable) :
    ∀ s ∈ planSplices t start stop replacement, s.text.isEncodable := by
  rw [planSplices]
  split
  · exact fun s hs => mem_singleton.mp hs ▸ hreplacement
  · rename_i code comment hsplit
    obtain ⟨hcode, hcomment⟩ := isEncodable_of_splitCommentFrom hsplit rfl hreplacement
    split
    · have hinside : (withoutCommentEnd (Text.trim (comment.drop 2))).isEncodable :=
        isEncodable_withoutCommentEnd
          (isEncodable_trimWhile (isEncodable_drop hcomment 2) _)
      simp [hcode, hinside]
    · rename_i position needsLineEnd _
      split_ifs <;> simp [hcode, hcomment]

lemma isEncodable_foldl_apply (hsplices : ∀ s ∈ splices, s.text.isEncodable) (hstate : state.1.isEncodable) :
    (splices.foldl (fun (t, anchors) s => (s.apply t, anchors.map s.move)) state).1.isEncodable =
      true :=
  List.foldlRecOn splices _ hstate (motive := fun state : Text × List Int => state.1.isEncodable)
    fun _ hstate s hs => isEncodable_splice hstate (hsplices s hs) _ _

lemma isEncodable_applyChange {state' : Text × List Int} {c : Change} (hc : c.replacement.isEncodable)
    (hstate : state.1.isEncodable) (h : applyChange state c = .ok state') : state'.1.isEncodable := by
  rw [applyChange] at h
  split at h
  · obtain rfl := Except.ok.inj h
    exact isEncodable_foldl_apply (isEncodable_of_mem_planSplices hc) hstate
  · obtain ⟨span, -, h⟩ := exists_ok_of_bind h
    obtain rfl := Except.ok.inj h
    exact isEncodable_foldl_apply (isEncodable_of_mem_planSplices hc) hstate

/-- The changes are still the same ones when their keys are known. -/
lemma map_fst_of_mapM_orderKey {table : List Nat} {keyed : List (Change × List Int)}
    (h : (changes.mapM fun c => return (c, ← c.orderKey table) : Except Failure _) = .ok keyed) :
    keyed.map Prod.fst = changes := by
  induction changes generalizing keyed with
  | nil =>
    cases h
    rfl
  | cons c rest ih =>
    rw [mapM_cons] at h
    obtain ⟨first, hfirst, h⟩ := exists_ok_of_bind h
    obtain ⟨others, hothers, h⟩ := exists_ok_of_bind h
    obtain ⟨key, -, hkey⟩ := exists_ok_of_bind hfirst
    obtain rfl := Except.ok.inj hkey
    obtain rfl := Except.ok.inj h
    rw [map_cons, ih hothers]

/-- **A text with changes made** can be written out if it could before, and the replacements can. -/
theorem isEncodable_applyChanges {anchors moved : List Int}
    (ht : t.isEncodable) (hchanges : ∀ c ∈ changes, c.replacement.isEncodable)
    (h : applyChanges t changes anchors = .ok (out, moved)) : out.isEncodable := by
  rw [applyChanges] at h
  split_ifs at h
  · obtain ⟨rfl, -⟩ := Prod.mk.inj (Except.ok.inj h)
    exact ht
  · obtain ⟨_, -, h⟩ := exists_ok_of_bind h
    obtain ⟨keyed, hkeyed, h⟩ := exists_ok_of_bind h
    refine foldlM_keeps (P := fun state : Text × List Int => state.1.isEncodable)
      (fun state x hx state' hstate hstep => isEncodable_applyChange (hchanges x.1 ?_) hstate hstep) ht h
    rw [← map_fst_of_mapM_orderKey hkeyed]
    exact mem_map_of_mem ((sortDescending_perm _ keyed).mem_iff.mp hx)

/-! ## Insertions and replacements in order -/

/-- **A text with insertions made** can be written out if it could before, and what is inserted can. -/
theorem isEncodable_applyInsertions {insertions : List Insertion}
    (ht : t.isEncodable) (hinsertions : ∀ i ∈ insertions, i.text.isEncodable)
    (h : applyInsertions t insertions = .ok out) : out.isEncodable := by
  refine foldlM_keeps (P := fun t : Text => t.isEncodable)
    (fun t i hi t' htext hstep => ?_) ht h
  rw [Insertion.apply] at hstep
  split_ifs at hstep
  obtain rfl := Except.ok.inj hstep
  exact isEncodable_splice htext
    (hinsertions i ((sortDescending_perm _ insertions).mem_iff.mp hi)) _ _

/-- **A text with replacements made in order.** -/
theorem isEncodable_spliceFrom (ht : t.isEncodable) {cursor : Nat}
    (hsplices : ∀ s ∈ splices, s.text.isEncodable) :
    (spliceFrom t cursor splices).isEncodable := by
  induction splices generalizing cursor with
  | nil => exact isEncodable_drop ht cursor
  | cons s rest ih =>
    obtain ⟨hs, hrest⟩ := forall_mem_cons.mp hsplices
    rw [spliceFrom, isEncodable_append, isEncodable_append, isEncodable_slice ht, hs,
      ih hrest]
    rfl

end Phrasebook
