import Phrasebook.Proofs.Component.Template

/-!
# What is replaced in one place

The steps of a conversion look at spans that follow each other, so every other replacement stands before
the span of a step or behind it.

## Main results

* `TemplateBlock.isolates_attribute`, `TemplateBlock.isolates_literal` — the replacements that a template
  gets in the span of an attribute or of a string literal are just those of the step for that span.
-/

namespace Phrasebook

open List Text

variable {start stop limit : Nat} {quote : Option QuoteMark} {span : Nat × Nat} {α : Type}

/-- Things that follow each other lie between the two offsets. -/
lemma Follow.between {span : α → Nat × Nat} {x : α} :
    ∀ {xs : List α} {cursor : Nat}, Follow span limit cursor xs → x ∈ xs →
      cursor ≤ (span x).1 ∧ (span x).2 ≤ limit
  | c :: rest, cursor, h, hx => by
    obtain ⟨hstart, hle, hrest⟩ := h
    rcases mem_cons.mp hx with rfl | hx
    · exact ⟨hstart, hrest.cursor_le⟩
    · obtain ⟨hfirst, hlast⟩ := hrest.between hx
      exact ⟨by omega, hlast⟩

/-- The replacements of a step lie in the span that it fills, and none is empty. -/
lemma Fills.bounds {x : Bookkeeping (List Splice)} (h : Fills start stop x) {l l' : Ledger}
    {out : List Splice} (hrun : Runs x l out l') {s : Splice} (hs : s ∈ out) :
    start ≤ s.start ∧ s.start < s.stop ∧ s.stop ≤ stop :=
  (inOrder_iff.mp (h l out l' hrun).1).2.1 s hs

namespace TemplateBlock

/-- `Isolates lo hi x y`: of the replacements of the step `x`, those of a run of the step `y` are the only
ones that do not stand outside of the span from `lo` to `hi`. -/
def Isolates (lo hi : Nat) (x y : Bookkeeping (List Splice)) : Prop :=
  ∀ l out l', Runs x l out l' → ∃ m here m', Runs y m here m' ∧ here ⊆ out ∧
    ∀ s ∈ out, s ∈ here ∨ s.stop ≤ lo ∨ hi ≤ s.start

namespace Isolates

variable {lo hi lo' hi' middle : Nat} {x y z : Bookkeeping (List Splice)}

lemma trans (hxy : Isolates lo hi x y) (hyz : Isolates lo' hi' y z) (hlo : lo ≤ lo') (hhi : hi' ≤ hi) :
    Isolates lo' hi' x z := by
  intro l out l' hrun
  obtain ⟨m, here, m', hrun', hsubset, hapart⟩ := hxy l out l' hrun
  obtain ⟨n, inner, n', hrun'', hsubset', hapart'⟩ := hyz m here m' hrun'
  refine ⟨n, inner, n', hrun'', List.Subset.trans hsubset' hsubset, fun s hs => ?_⟩
  rcases hapart s hs with hs | hs
  · exact hapart' s hs
  · exact .inr (by omega)

lemma refl (lo hi : Nat) (x : Bookkeeping (List Splice)) : Isolates lo hi x x := fun l out l' hrun =>
  ⟨l, out, l', hrun, List.Subset.refl out, fun _ hs => .inl hs⟩

lemma narrow (h : Isolates lo hi x y) (hlo : lo ≤ lo') (hhi : hi' ≤ hi) : Isolates lo' hi' x y :=
  h.trans (.refl lo' hi' y) hlo hhi

/-- The first of two steps for spans that follow each other. -/
lemma left (hy : Fills middle hi y) (lo : Nat) : Isolates lo middle (both x y) x := by
  intro l out l' hrun
  obtain ⟨first, m, second, hfirst, hsecond, rfl⟩ := runs_both hrun
  refine ⟨l, first, m, hfirst, subset_append_left _ _, fun s hs => ?_⟩
  rcases mem_append.mp hs with hs | hs
  · exact .inl hs
  · exact .inr (.inr (hy.bounds hsecond hs).1)

lemma right (hx : Fills lo middle x) (hi : Nat) : Isolates middle hi (both x y) y := by
  intro l out l' hrun
  obtain ⟨first, m, second, hfirst, hsecond, rfl⟩ := runs_both hrun
  refine ⟨m, second, l', hsecond, subset_append_right _ _, fun s hs => ?_⟩
  rcases mem_append.mp hs with hs | hs
  · exact .inr (.inl (hx.bounds hfirst hs).2.2)
  · exact .inl hs

/-- **Steps for things that follow each other**: each of them decides alone about its span. -/
theorem gather {span : α → Nat × Nat} {step : α → Bookkeeping (List Splice)}
    {a : α} : ∀ {xs : List α} {cursor : Nat}, Follow span limit cursor xs →
      (∀ c ∈ xs, (span c).1 ≤ (span c).2 → Fills (span c).1 (span c).2 (step c)) → a ∈ xs →
      Isolates (span a).1 (span a).2 (TemplateBlock.gather step xs) (step a)
  | c :: rest, cursor, ⟨_, hle, hfollow⟩, hstep, ha => by
    have hhere := hstep c mem_cons_self hle
    have hothers : ∀ d ∈ rest, (span d).1 ≤ (span d).2 → Fills (span d).1 (span d).2 (step d) :=
      fun d hd => hstep d (mem_cons_of_mem c hd)
    rw [gather_cons]
    rcases mem_cons.mp ha with rfl | ha
    · exact left (Fills.gather hfollow hothers) _
    · obtain ⟨hstart, hstop⟩ := hfollow.between ha
      exact (right hhere limit).trans (gather hfollow hothers ha) hstart hstop

end Isolates

variable {b : TemplateBlock}

/-- The expressions of a text, and what stands outside of them. -/
lemma isolates_textSplices : ∀ {ms : List (Nat × Nat)} {cursor : Nat},
    Follow mustacheSpan stop cursor ms → (∀ m ∈ ms, 2 ≤ m.1 ∧ m.1 ≤ m.2) →
      (∀ m ∈ ms, Isolates m.1 m.2 (b.textSplices cursor stop ms) (b.expressionSplices none m.1 m.2)) ∧
        ∀ span ∈ plainSpans cursor stop ms, cursor ≤ span.1 ∧ span.2 ≤ stop ∧
          Isolates span.1 span.2 (b.textSplices cursor stop ms) (b.plainTextSplices span.1 span.2)
  | [], cursor, _, _ => ⟨nofun, forall_mem_singleton.mpr ⟨le_rfl, le_rfl, .refl _ _ _⟩⟩
  | (first, last) :: rest, cursor, ⟨hstart, hspan, hfollow⟩, hvalid => by
    obtain ⟨⟨htwo, hle⟩, hothers⟩ := forall_mem_cons.mp hvalid
    simp only [mustacheSpan] at hstart hspan hfollow
    have hbefore := b.fills_plainTextSplices hstart
    have hinside := (b.fills_expressionSplices none hle).of_le (Nat.sub_le first 2) (Nat.le_add_right last 2)
    have hafter := b.fills_textSplices hfollow hothers
    obtain ⟨hexpressions, hplain⟩ := isolates_textSplices hfollow hothers
    have hstop := hfollow.cursor_le
    have hfirst := Isolates.left (x := both (b.plainTextSplices cursor (first - 2))
      (b.expressionSplices none first last)) hafter
    have hrest : Isolates (last + 2) stop (both (both (b.plainTextSplices cursor (first - 2))
        (b.expressionSplices none first last)) (b.textSplices (last + 2) stop rest))
        (b.textSplices (last + 2) stop rest) := .right (hbefore.append hinside) stop
    have hhere := (hfirst (first - 2)).trans (.right hbefore (last + 2)) le_rfl le_rfl
    have htext := (hfirst cursor).trans (.left hinside cursor) le_rfl hspan
    simp only [textSplices_cons, forall_mem_cons, plainSpans]
    refine ⟨⟨hhere.narrow (Nat.sub_le first 2) (Nat.le_add_right last 2), fun m hm => ?_⟩,
      ⟨le_rfl, hspan.trans hstop, htext⟩, fun span hs => ?_⟩
    · obtain ⟨hlow, hhigh⟩ := hfollow.between hm
      simp only [mustacheSpan] at hlow hhigh
      exact hrest.trans (hexpressions m hm) (by omega) (by omega)
    · obtain ⟨hlow, hhigh, hisolates⟩ := hplain span hs
      exact ⟨by omega, hhigh, hrest.trans hisolates hlow hhigh⟩

/-- Inside of a part, the replacements are those of the part. -/
lemma isolates_part {part : Part} (hpart : part ∈ markupParts b.content) :
    Isolates part.span.1 part.span.2 b.splices (b.partSplices part) :=
  .gather (follow_markupParts b.content) (fun _ _ h => b.fills_partSplices h) hpart

/-- **What is replaced in an attribute** is what the step for it replaces. -/
theorem isolates_attribute {a : Attribute} (ha : a ∈ b.attributes) :
    Isolates a.start a.stop b.splices (b.attributeSplices a) := by
  obtain ⟨part, hpart, ha⟩ := mem_flatMap.mp ha
  have hle := (follow_markupParts b.content).le_of_mem hpart
  cases part with
  | text start stop => exact absurd ha not_mem_nil
  | tag start stop =>
    obtain ⟨hfollow, hvalid⟩ := follow_attributesOf start (b.content.slice start stop)
    have hlimit := add_length_slice_le b.content hle
    have hwithin : Isolates a.start a.stop (b.partSplices (.tag start stop)) (b.attributeSplices a) :=
      .gather hfollow (fun c hc _ => b.fills_attributeSplices (hvalid c hc).1 (hvalid c hc).2) ha
    obtain ⟨hstart, hstop⟩ := (hfollow.of_limit_le hlimit).between ha
    exact (isolates_part hpart).trans hwithin hstart hstop

/-- What is replaced in text outside of tags and expressions. -/
lemma isolates_plainText (hspan : span ∈ b.plainTexts) :
    Isolates span.1 span.2 b.splices (b.plainTextSplices span.1 span.2) := by
  obtain ⟨part, hpart, hspan⟩ := mem_flatMap.mp hspan
  cases part with
  | tag start stop => exact absurd hspan not_mem_nil
  | text start stop =>
    have hle := (follow_markupParts b.content).le_of_mem hpart
    obtain ⟨hfollow, hvalid⟩ := follow_mustaches start (b.content.slice start stop)
    have hlimit := hfollow.of_limit_le (add_length_slice_le b.content hle)
    obtain ⟨hstart, hstop, hisolates⟩ := (isolates_textSplices hlimit hvalid).2 span hspan
    exact (isolates_part hpart).trans hisolates hstart hstop

/-- Inside of an expression, they are those of the expression. -/
lemma isolates_expression (hexpression : (quote, start, stop) ∈ b.expressions) :
    start ≤ stop ∧ Isolates start stop b.splices (b.expressionSplices quote start stop) := by
  obtain ⟨part, hpart, hexpression⟩ := mem_flatMap.mp hexpression
  have hle := (follow_markupParts b.content).le_of_mem hpart
  rcases mem_append.mp hexpression with hexpression | hexpression
  · obtain ⟨m, hm, heq⟩ := mem_map.mp hexpression
    cases heq
    cases part with
    | tag first last => exact absurd hm not_mem_nil
    | text first last =>
      obtain ⟨hfollow, hvalid⟩ := follow_mustaches first (b.content.slice first last)
      have hlimit : first + (b.content.slice first last).length ≤ last :=
        add_length_slice_le b.content hle
      have hfollow := hfollow.of_limit_le hlimit
      obtain ⟨hstart, hstop⟩ := hfollow.between hm
      have hvalid' := hvalid _ hm
      simp only [mustacheSpan] at hstart hstop
      refine ⟨hvalid'.2, (isolates_part hpart).trans ((isolates_textSplices hfollow hvalid).1 _ hm) ?_ ?_⟩
      · simp only [Part.span]
        omega
      · simp only [Part.span]
        omega
  · obtain ⟨a, ha, heq⟩ := mem_map.mp hexpression
    cases heq
    obtain ⟨ha, hbound⟩ := mem_filter.mp ha
    cases part with
    | text first last => exact absurd ha not_mem_nil
    | tag first last =>
      obtain ⟨hvalue, hle⟩ := (follow_attributesOf first (b.content.slice first last)).2 a ha
      have hwithin := isolates_attribute (b := b) (mem_flatMap.mpr ⟨_, hpart, ha⟩)
      rw [attributeSplices, if_pos hbound] at hwithin
      exact ⟨hle, hwithin.narrow hvalue.le (Nat.le_succ a.valueStop)⟩

/-- **What is replaced in a string literal** of an expression is what the step for it replaces. -/
theorem isolates_literal (hexpression : (quote, start, stop) ∈ b.expressions)
    (hspan : span ∈ stringLiterals (b.content.slice start stop)) :
    Isolates (start + span.1) (start + span.2) b.splices
      (b.literalSplice quote start (b.content.slice start stop) span) := by
  obtain ⟨hle, hwithin⟩ := isolates_expression hexpression
  obtain ⟨hfollow, hlt⟩ := follow_stringLiterals (b.content.slice start stop)
  have hshift := (hfollow.shift start).of_limit_le (add_length_slice_le b.content hle)
  have hinside := Isolates.gather hshift
    (fun c hc _ => b.fills_literalSplice quote start (b.content.slice start stop) (hlt c hc)) hspan
  obtain ⟨hstart, hstop⟩ := hshift.between hspan
  exact hwithin.trans hinside hstart hstop

end TemplateBlock

end Phrasebook
