import Phrasebook.Proofs.Component.Renewal

/-!
# Converting a template again

The pieces of a converted template are those of the old one, each with its replacements made. If what is
written cannot be mistaken for something else where it stands, each of them is settled.

## Main results

* `TemplateBlock.yields_pieces` — what becomes of the pieces.
* `TemplateBlock.convert_again` — to convert a template again changes and records nothing.
-/

namespace Phrasebook

open List Option Text

variable {offset : Nat} {r u : Text}

namespace TemplateBlock

variable {b : TemplateBlock} {keys : List Key}

/-- **Templates in which nothing can be mistaken** for something else when phrases are replaced with
the given keys. -/
@[mk_iff]
structure IsTame (b : TemplateBlock) (keys : List Key) : Prop where
  callName : IsCallName b.callName
  /-- What marks a phrase does not depend on what stands around it. -/
  plain : b.extractor.delimiter.pattern.isPlain = true
  texts : ∀ span ∈ b.plainTexts, b.IsTameText keys (b.content.slice span.1 span.2)
  /-- In an expression in double braces every quote belongs to a literal, and the literals can be
  replaced. -/
  expressions : ∀ e ∈ b.expressions, e.1 = none →
    b.IsTameExpression none keys (b.content.slice e.2.1 e.2.2)
  attributes : ∀ a ∈ b.attributes, b.IsTameAttribute keys a
  /-- In a tag with a replacement every quote belongs to an attribute. -/
  tags : ∀ part ∈ markupParts b.content, (∃ a ∈ b.attributesIn part, b.MarkedAttribute a) →
    Unquoted (outside b.content part.span.1 part.span.2 ((b.attributesIn part).map Attribute.span))

instance : Decidable (b.IsTame keys) := decidable_of_iff _ (isTame_iff b keys).symm

/-- Tame text becomes settled text. -/
lemma IsTame.yields_text (h : b.IsTame keys) {t : Text}
    (hcontent : b.content = u ++ (t ++ r)) (hoffset : offset = u.length)
    (hpart : .text offset (offset + t.length) ∈ markupParts b.content) (hopen : .scalar '<' ∉ t) :
    b.Yields keys offset (offset + t.length) (b.partSplices (.text offset (offset + t.length))) fun t' =>
      .scalar '<' ∉ t' ∧ (t ≠ [] → t' ≠ []) ∧ b.marking.TextSettled t' := by
  have hslice : b.content.slice offset (offset + t.length) = t := slice_of_eq hcontent hoffset rfl
  have hmustaches : b.mustachesIn (.text offset (offset + t.length)) = mustaches offset t := by
    rw [mustachesIn, hslice]
  have hscanned : Scanned mustacheAt? offset t (mustaches offset t) := scanned_mustaches offset t
  rw [partSplices, hslice]
  refine yields_textSplices h.callName h.plain hscanned hcontent hoffset rfl hopen
    (fun span hspan => h.texts span (mem_flatMap.mpr ⟨_, hpart, ?_⟩))
    fun m hm => h.expressions (none, m)
      (mem_flatMap.mpr ⟨_, hpart, mem_append_left _ ?_⟩) rfl
  · rwa [plainTextsIn, hmustaches]
  · rw [hmustaches]
    exact mem_map_of_mem hm

/-- A tame tag becomes a settled one. -/
lemma IsTame.yields_tag (h : b.IsTame keys) (inner : Text)
    (hcontent : b.content = u ++ (.scalar '<' :: inner ++ r)) (hoffset : offset = u.length)
    (hpart : .tag offset (offset + ('<' :: inner : Text).length) ∈ markupParts b.content) :
    b.Yields keys offset (offset + ('<' :: inner : Text).length)
      (b.partSplices (.tag offset (offset + ('<' :: inner : Text).length)))
      fun t => b.marking.TagSettled t ∧ (t = .scalar '<' :: inner ∨
        ∃ name rest rest', inner = name ++ rest ∧ t = .scalar '<' :: (name ++ rest') ∧
          b.marking.RenewedTag name rest rest') := by
  have hslice : b.content.slice offset (offset + ('<' :: inner : Text).length) =
      .scalar '<' :: inner := slice_of_eq hcontent hoffset rfl
  have hattributes : b.attributesIn (.tag offset (offset + ('<' :: inner : Text).length)) =
      attributesOf offset ('<' :: inner) := by rw [attributesIn, hslice]
  have htags := h.tags _ hpart
  rw [hattributes] at htags
  rw [partSplices, hslice]
  refine TemplateBlock.yields_tag h.callName hcontent hoffset rfl (fun a ha => ?_) htags
  exact h.attributes a (mem_flatMap.mpr ⟨_, hpart, by rwa [hattributes]⟩)

/-- **The pieces of the new template.** -/
theorem yields_pieces (h : b.IsTame keys) {pieces : List Piece} (hcut : IsCut pieces)
    (hcontent : b.content = u ++ joined pieces) (hoffset : offset = u.length)
    (hparts : ∀ part ∈ partsFrom offset pieces, part ∈ markupParts b.content) :
    b.Yields keys offset b.content.length (gather b.partSplices (partsFrom offset pieces)) fun t =>
      ∃ pieces', t = joined pieces' ∧ IsCut pieces' ∧
        (∀ piece ∈ pieces', b.marking.PieceSettled piece) ∧
        pieces'.head?.map Piece.isText = pieces.head?.map Piece.isText := by
  have hend : ∀ {t u : Text}, b.content = u ++ t → b.content.slice u.length b.content.length = t := by
    intro t u hcontent
    rw [Text.slice, take_length, hcontent, drop_left]
  induction hcut generalizing u offset with
  | nil =>
    refine Yields.pure_nil (by rw [hcontent, hoffset]; simp) ⟨[], ?_, .nil, forall_mem_nil _, rfl⟩
    rw [hoffset, hend hcontent]
  | @text t rest hne hopen hnext hrest ih =>
    rw [joined_cons] at hcontent
    obtain ⟨hpart, hothers⟩ := forall_mem_cons.mp hparts
    have hhere := h.yields_text hcontent hoffset hpart fun hmem => hopen _ hmem rfl
    have hthere := ih (u := u ++ t) (by rw [hcontent, append_assoc]; rfl)
      (by rw [length_append, hoffset]) hothers
    refine (hhere.both hthere).imp ?_
    rintro t' ⟨v, -, rfl, ⟨hopen', hne', hsettled⟩, pieces', rfl, hcut', hpieces, hsame⟩
    refine ⟨.text v :: pieces', rfl, .text (hne' hne) (fun c hc heq => hopen' (heq ▸ hc)) ?_ hcut',
      forall_mem_cons.mpr ⟨hsettled, hpieces⟩, rfl⟩
    -- what follows is no text, as before
    cases hhead : rest.head? with
    | none =>
      rw [hhead, map_none, map_eq_none_iff] at hsame
      rw [hsame, all_none]
    | some piece =>
      rw [hhead, map_some, map_eq_some_iff] at hsame
      obtain ⟨piece', hpiece', heq⟩ := hsame
      rw [hhead, all_some] at hnext
      rwa [hpiece', all_some, heq]
  | @comment t rest ht hrest ih =>
    rw [joined_cons] at hcontent
    have hslice : b.content.slice offset (offset + t.length) = t := slice_of_eq hcontent hoffset rfl
    have hthere := ih (u := u ++ t) (by rw [hcontent, append_assoc]; rfl)
      (by rw [length_append, hoffset]) hparts
    refine (hthere.advance (Nat.le_add_right _ _)).imp ?_
    rintro t' ⟨-, rfl, pieces', rfl, hcut', hpieces, -⟩
    exact ⟨.comment t :: pieces', by rw [hslice]; rfl, .comment ht hcut',
      forall_mem_cons.mpr ⟨trivial, hpieces⟩, rfl⟩
  | @openComment t hopening hclosing =>
    rw [joined_cons, joined_nil, append_nil] at hcontent
    refine Yields.pure_nil (by rw [hcontent, hoffset]; simp)
      ⟨[.comment t], ?_, .openComment hopening hclosing, ?_, rfl⟩
    · rw [hoffset, hend hcontent, joined_cons, joined_nil, append_nil]
    · simp [Marking.PieceSettled]
  | @tag inner rest hinner hopening hrest ih =>
    rw [joined_cons] at hcontent
    obtain ⟨hpart, hothers⟩ := forall_mem_cons.mp hparts
    have hhere := h.yields_tag (inner ++ [CodePoint.scalar '>']) hcontent hoffset hpart
    have hthere := ih (u := u ++ (.scalar '<' :: inner ++ [.scalar '>']))
      (by rw [hcontent, append_assoc]; rfl) (by rw [hoffset, ← length_append]) hothers
    refine (hhere.both hthere).imp ?_
    rintro t' ⟨v, -, rfl, ⟨hsettled, hv⟩, pieces', rfl, hcut', hpieces, -⟩
    refine ⟨.tag v :: pieces', rfl, ?_, forall_mem_cons.mpr ⟨hsettled, hpieces⟩, rfl⟩
    rcases hv with rfl | ⟨name, behind, behind', hsplit, rfl, hrenewed⟩
    · exact .tag hinner hopening hcut'
    · obtain ⟨inner', hinner', hclosed⟩ := hrenewed.exists_closed hsplit.symm hinner
      have hopening' := hrenewed.not_startsWith (by rwa [← hsplit])
      rw [hinner'] at hopening' ⊢
      exact .tag hclosed hopening' hcut'
  | @openTag inner hinner hopening =>
    rw [joined_cons, joined_nil] at hcontent
    obtain ⟨hpart, -⟩ := forall_mem_cons.mp hparts
    have hlen : b.content.length = offset + ('<' :: inner : Text).length := by
      rw [hcontent, append_nil, length_append, hoffset]
      rfl
    have hhere := h.yields_tag inner hcontent hoffset hpart
    change b.Yields keys offset b.content.length (both (b.partSplices _) (pure [])) _
    rw [← hlen] at hhere ⊢
    have hdone : b.Yields keys b.content.length b.content.length (pure []) (· = []) :=
      Yields.pure_nil (le_refl _) (slice_self _ _)
    refine (hhere.both hdone).imp ?_
    rintro t' ⟨v, -, rfl, ⟨hsettled, hv⟩, rfl⟩
    refine ⟨[.tag v], rfl, ?_, forall_mem_singleton.mpr hsettled, rfl⟩
    rcases hv with rfl | ⟨name, behind, behind', rfl, rfl, hrenewed⟩
    · exact .openTag hinner hopening
    · refine .openTag ?_ (hrenewed.not_startsWith hopening)
      rwa [openQuote?_unquoted_append hrenewed.unquoted hrenewed.attributes.openQuote?_eq]

/-- **To convert a template again changes nothing**: a template that has been converted, and in which
nothing can be mistaken, is left alone, and nothing is recorded. -/
theorem convert_again {b b' : TemplateBlock} {l l' : Ledger} {out : Text} {changes : List Change}
    (hrun : Runs b.convert l (out, changes) l') (htame : b.IsTame l'.keys) (hcontent : b'.content = out)
    (hmarking : b'.marking = b.marking) (m : Ledger) : Runs b'.convert m (out, []) m := by
  obtain ⟨splices, hsplices, heq⟩ := b.runs_convert.mp hrun
  obtain ⟨hout, -⟩ := Prod.mk.inj heq
  obtain ⟨pieces, hcut, hjoined⟩ := exists_cut b.content
  have hparts : markupParts b.content = partsFrom 0 pieces := by
    rw [← hjoined, markupParts_joined hcut]
  have hyields := yields_pieces htame hcut (u := []) hjoined.symm rfl fun part hpart => by
    rwa [hparts]
  rw [TemplateBlock.splices, hparts] at hsplices
  obtain ⟨-, -, pieces', hpatched, hcut', hsettled, -⟩ :=
    hyields l splices l' hsplices (List.Subset.refl _)
  rw [length_nil, ← spliceFrom_eq_patched, ← hout] at hpatched
  have hidle : Idle b'.splices := idle_splices hcut' (hcontent.trans hpatched) (by rwa [hmarking])
  refine b'.runs_convert.mpr ⟨[], hidle m, ?_⟩
  rw [spliceFrom, hcontent, drop_zero, map_nil]

/-- An attribute, a text and a literal are replaced at once, and no more after that. -/
theorem convert_again_of_three :
    let delimiter := (Delimiter.ofText "(a)").toOption.get (by with_unfolding_all rfl)
    let b : TemplateBlock := ⟨⟨[], "f.vue", {}, delimiter, []⟩, 5, "<p x='a'>a\x7b\x7b'a'\x7d\x7d", "$t"⟩
    let out : Text := "<p :x='$t(\"a\")'>\x7b\x7b $t(\"a\") \x7d\x7d\x7b\x7b$t(\"a\")\x7d\x7d"
    ∃ changes l', Runs b.convert {} (out, changes) l' ∧ changes.length = 3 ∧ b.IsTame l'.keys ∧
      ∀ m, Runs ({ b with content := out } : TemplateBlock).convert m (out, []) m := by
  intro delimiter b out
  have hpasses : passes b.convert {} (fun result l' =>
      decide (result.1 = out ∧ result.2.length = 3 ∧ b.IsTame l'.keys)) = true := by decide +kernel
  obtain ⟨⟨out', changes⟩, l', hrun, htest⟩ := exists_runs_of_passes hpasses
  obtain ⟨hout, hlength, htame⟩ := of_decide_eq_true htest
  change out' = out at hout
  rw [hout] at hrun
  exact ⟨changes, l', hrun, hlength, htame, convert_again hrun htame rfl rfl⟩

end TemplateBlock

end Phrasebook
