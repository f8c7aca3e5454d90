import Phrasebook.Proofs.Component.Isolation
import Phrasebook.Proofs.Component.Pieces
import Phrasebook.Proofs.Message.Assignment

/-!
# What is replaced in a template

Phrases are looked for in the text outside of tags and expressions, in the values of attributes that
are not bound, and in the string literals of expressions that are not the argument of a lookup.

## Main results

* `TemplateBlock.runs_plainTextSplices`, `TemplateBlock.runs_literalSplice`, `TemplateBlock.runs_staticSplice`
  — what the steps do.
* `TemplateBlock.Steps.failsBy` — a conversion fails if a literal cannot be decoded, or if a function of
  the caller refuses a key, and for no other reason.
* `TemplateBlock.convert_edits` — each replacement is that of a phrase, of an attribute or of a literal,
  and lies in a tag or in a text; comments stay as they are.
-/

namespace Phrasebook

open List

variable {pieces : List Piece} {start offset stop : Nat} {s : Splice} {c : Nat × Nat}
  {keys : List Key} {part : Part} {x : Bookkeeping (List Splice)}

namespace TemplateBlock

/-! ## What each step does -/

variable {b : TemplateBlock} {l l' : Ledger} {out : List Splice}

/-- The phrases of a part of a template get their keys. -/
lemma assigned_resolveAll {offset : Phrase → Nat} {phrases : List Phrase}
    {resolved : List (Phrase × Key)} (h : Runs (b.resolveAll offset phrases) l resolved l') :
    l.keys ⊆ l'.keys ∧ Assigned b.extractor.delimiter phrases l'.keys resolved := by
  induction phrases generalizing l resolved with
  | nil =>
    obtain ⟨rfl, rfl⟩ := runs_pure.mp h
    exact ⟨List.Subset.refl _, .nil _⟩
  | cons p rest ih =>
    rw [resolveAll] at h
    obtain ⟨key, m, others, hkey, hothers, rfl⟩ := runs_bind_bind_pure h
    obtain ⟨hsome, hsubset, hmem⟩ := keys_of_runs_resolveKey hkey
    obtain ⟨hrest, hassigned⟩ := ih hothers
    exact ⟨List.Subset.trans hsubset hrest, .cons hsome (fun k hk => hrest (hmem k hk)) hassigned⟩

/-- The replacement of a phrase in text that begins at an offset. -/
def phraseSplice (b : TemplateBlock) (start : Nat) (x : Phrase × Key) : Splice :=
  ⟨start + x.1.start, start + x.1.stop,
    "\x7b\x7b " ++ b.lookup none x.2 x.1.payload (informalArguments x.1.payload) ++ " \x7d\x7d"⟩

/-- **Text without expressions**: its phrases are replaced. -/
theorem runs_plainTextSplices (h : Runs (b.plainTextSplices start stop) l out l') :
    ∃ resolved, l.keys ⊆ l'.keys ∧
      Assigned b.extractor.delimiter
        (b.extractor.delimiter.phrases (b.content.slice start stop)) l'.keys resolved ∧
      out = resolved.map (b.phraseSplice start) := by
  rw [plainTextSplices] at h
  obtain ⟨resolved, m, hresolved, h⟩ := runs_bind.mp h
  obtain ⟨rfl, rfl⟩ := runs_pure.mp h
  obtain ⟨hkeys, hassigned⟩ := assigned_resolveAll hresolved
  exact ⟨resolved, hkeys, hassigned, rfl⟩

/-- The replacement of a string literal in an expression that begins at an offset. -/
def spliceOfLiteral (b : TemplateBlock) (quote : Option QuoteMark) (start : Nat) (expression : Text)
    (span : Nat × Nat) (decoded : Decoded) (resolved : List (Phrase × Key)) : Splice :=
  ⟨start + span.1, start + span.2,
    b.callOrTemplate quote (.quoted (literalInside expression span) decoded)
      (b.extractor.delimiter.phrases decoded.text) resolved⟩

/-- **A string literal** is left alone as the argument of a lookup, or else decoded and replaced if
phrases are in it. -/
theorem runs_literalSplice {quote : Option QuoteMark} {expression : Text} {span : Nat × Nat}
    (h : Runs (b.literalSplice quote start expression span) l out l') :
    (opensLookup b.callName (expression.take span.1) ∧ out = [] ∧ l' = l) ∨
      opensLookup b.callName (expression.take span.1) = false ∧ l.keys ⊆ l'.keys ∧
        ∃ decoded resolved, decodeLiteral (literalInside expression span) = .ok decoded ∧
          Assigned b.extractor.delimiter (b.extractor.delimiter.phrases decoded.text) l'.keys
            resolved ∧
          out = if resolved.isEmpty then []
            else [b.spliceOfLiteral quote start expression span decoded resolved] := by
  rw [literalSplice] at h
  split_ifs at h with hopens
  · exact .inl ⟨hopens, runs_pure.mp h⟩
  · refine .inr ⟨by simpa using hopens, ?_⟩
    simp only at h
    split at h
    · exact absurd h runs_throw
    · rename_i decoded hdecode
      obtain ⟨resolved, m, hresolved, h⟩ := runs_bind.mp h
      obtain ⟨hkeys, hassigned⟩ := assigned_resolveAll hresolved
      split_ifs at h with hnil
      · obtain ⟨rfl, rfl⟩ := runs_pure.mp h
        exact ⟨hkeys, decoded, resolved, hdecode, hassigned, by rw [if_pos hnil]⟩
      · obtain ⟨rfl, rfl⟩ := runs_pure.mp h
        exact ⟨hkeys, decoded, resolved, hdecode, hassigned, by rw [if_neg hnil]; rfl⟩

/-- The value of an attribute. -/
def valueOf (b : TemplateBlock) (a : Attribute) : Text := b.content.slice a.valueStart a.valueStop

/-- The replacement of an attribute whose value is plain text. -/
def spliceOfAttribute (b : TemplateBlock) (a : Attribute) (resolved : List (Phrase × Key)) : Splice :=
  ⟨a.start, a.stop,
    ":" ++ a.name ++ "=" ++ [a.quote.point]
      ++ b.callOrTemplate (some a.quote) (.value (b.valueOf a))
        (b.extractor.delimiter.phrases (b.valueOf a)) resolved
      ++ [a.quote.point]⟩

/-- **An attribute whose value is plain text** is replaced if phrases are in it. -/
theorem runs_staticSplice {a : Attribute} (h : Runs (b.staticSplice a) l out l') :
    ∃ resolved, l.keys ⊆ l'.keys ∧
      Assigned b.extractor.delimiter (b.extractor.delimiter.phrases (b.valueOf a)) l'.keys resolved ∧
      out = if resolved.isEmpty then [] else [b.spliceOfAttribute a resolved] := by
  rw [staticSplice] at h
  obtain ⟨resolved, m, hresolved, h⟩ := runs_bind.mp h
  obtain ⟨hkeys, hassigned⟩ := assigned_resolveAll hresolved
  split_ifs at h with hnil
  · obtain ⟨rfl, rfl⟩ := runs_pure.mp h
    exact ⟨resolved, hkeys, hassigned, by rw [if_pos hnil]⟩
  · obtain ⟨rfl, rfl⟩ := runs_pure.mp h
    exact ⟨resolved, hkeys, hassigned, by rw [if_neg hnil]; rfl⟩

/-! ## The replacements -/

/-- **The replacements that can be made** with the given keys. -/
inductive IsEdit (b : TemplateBlock) (keys : List Key) : Splice → Prop where
  /-- A phrase in text becomes an expression in double braces. -/
  | phrase {span : Nat × Nat} {resolved : List (Phrase × Key)} {x : Phrase × Key}
      (hspan : span ∈ b.plainTexts)
      (hresolved : Assigned b.extractor.delimiter
        (b.extractor.delimiter.phrases (b.content.slice span.1 span.2)) keys resolved)
      (hx : x ∈ resolved) : IsEdit b keys (b.phraseSplice span.1 x)
  /-- A string literal with phrases in it, which is not the argument of a lookup, is replaced as a
  whole. -/
  | literal {quote : Option QuoteMark} {start stop : Nat} {span : Nat × Nat} {decoded : Decoded}
      {resolved : List (Phrase × Key)} (hexpression : (quote, start, stop) ∈ b.expressions)
      (hspan : span ∈ stringLiterals (b.content.slice start stop))
      (hopens : opensLookup b.callName ((b.content.slice start stop).take span.1) = false)
      (hdecode : decodeLiteral (literalInside (b.content.slice start stop) span) = .ok decoded)
      (hresolved : Assigned b.extractor.delimiter (b.extractor.delimiter.phrases decoded.text) keys
        resolved)
      (hne : resolved ≠ []) :
    IsEdit b keys (b.spliceOfLiteral quote start (b.content.slice start stop) span decoded resolved)
  /-- An attribute with phrases in its value, which is not bound, is replaced as a whole. -/
  | value {a : Attribute} {resolved : List (Phrase × Key)} (ha : a ∈ b.attributes)
      (hbound : a.isBound = false)
      (hresolved : Assigned b.extractor.delimiter (b.extractor.delimiter.phrases (b.valueOf a)) keys
        resolved)
      (hne : resolved ≠ []) : IsEdit b keys (b.spliceOfAttribute a resolved)

lemma IsEdit.mono {keys' : List Key} (hkeys : keys ⊆ keys') (h : b.IsEdit keys s) :
    b.IsEdit keys' s := by
  cases h with
  | phrase hspan hresolved hx => exact .phrase hspan (hresolved.mono hkeys) hx
  | literal hexpression hspan hopens hdecode hresolved hne =>
    exact .literal hexpression hspan hopens hdecode (hresolved.mono hkeys) hne
  | value ha hbound hresolved hne => exact .value ha hbound (hresolved.mono hkeys) hne

/-- A step that gives replacements of a template, with keys that are on record afterwards. -/
def Edits (b : TemplateBlock) (x : Bookkeeping (List Splice)) : Prop :=
  ∀ l out l', Runs x l out l' → l.keys ⊆ l'.keys ∧ ∀ s ∈ out, b.IsEdit l'.keys s

/-- **Steps replace what can be replaced**, with keys that are on record afterwards. -/
theorem Steps.edits (h : b.Steps x) : b.Edits x := by
  induction h with
  | nothing =>
    intro l out l' hrun
    obtain ⟨rfl, rfl⟩ := runs_pure.mp hrun
    exact ⟨List.Subset.refl _, nofun⟩
  | both _ _ hx hy =>
    intro l out l' hrun
    obtain ⟨first, m, second, hfirst, hsecond, rfl⟩ := runs_both hrun
    obtain ⟨hkeys, hedits⟩ := hx l first m hfirst
    obtain ⟨hkeys', hedits'⟩ := hy m second l' hsecond
    exact ⟨List.Subset.trans hkeys hkeys', forall_mem_append.mpr
      ⟨fun s hs => (hedits s hs).mono hkeys', hedits'⟩⟩
  | text hspan =>
    intro l out l' hrun
    obtain ⟨resolved, hkeys, hassigned, rfl⟩ := runs_plainTextSplices hrun
    refine ⟨hkeys, fun s hs => ?_⟩
    obtain ⟨x, hx, rfl⟩ := mem_map.mp hs
    exact .phrase hspan hassigned hx
  | literal hexpression hspan =>
    intro l out l' hrun
    rcases runs_literalSplice hrun with
      ⟨-, rfl, rfl⟩ | ⟨hopens, hkeys, decoded, resolved, hdecode, hassigned, rfl⟩
    · exact ⟨List.Subset.refl _, nofun⟩
    · refine ⟨hkeys, fun s hs => ?_⟩
      split_ifs at hs with hnil
      · exact absurd hs not_mem_nil
      · obtain rfl := mem_singleton.mp hs
        exact .literal hexpression hspan hopens hdecode hassigned (by simpa using hnil)
  | value ha hbound =>
    intro l out l' hrun
    obtain ⟨resolved, hkeys, hassigned, rfl⟩ := runs_staticSplice hrun
    refine ⟨hkeys, fun s hs => ?_⟩
    split_ifs at hs with hnil
    · exact absurd hs not_mem_nil
    · obtain rfl := mem_singleton.mp hs
      exact .value ha hbound hassigned (by simpa using hnil)

/-! ## Nothing is left out -/

/-- **The spans that are to be replaced.** -/
inductive IsSite (b : TemplateBlock) : Nat → Nat → Prop where
  | phrase {span : Nat × Nat} {p : Phrase} (hspan : span ∈ b.plainTexts)
      (hp : p ∈ b.extractor.delimiter.phrases (b.content.slice span.1 span.2))
      (hmarked : (b.extractor.delimiter.phrase? p.full).isSome) :
    IsSite b (span.1 + p.start) (span.1 + p.stop)
  /-- A string literal with a phrase in it, which is not the argument of a lookup. -/
  | literal {quote : Option QuoteMark} {start stop : Nat} {span : Nat × Nat} {decoded : Decoded}
      {p : Phrase} (hexpression : (quote, start, stop) ∈ b.expressions)
      (hspan : span ∈ stringLiterals (b.content.slice start stop))
      (hopens : opensLookup b.callName ((b.content.slice start stop).take span.1) = false)
      (hdecode : decodeLiteral (literalInside (b.content.slice start stop) span) = .ok decoded)
      (hp : p ∈ b.extractor.delimiter.phrases decoded.text)
      (hmarked : (b.extractor.delimiter.phrase? p.full).isSome) :
    IsSite b (start + span.1) (start + span.2)
  /-- An attribute with a phrase in its value, which is not bound. -/
  | value {a : Attribute} {p : Phrase} (ha : a ∈ b.attributes) (hbound : a.isBound = false)
      (hp : p ∈ b.extractor.delimiter.phrases (b.valueOf a))
      (hmarked : (b.extractor.delimiter.phrase? p.full).isSome) : IsSite b a.start a.stop

/-- A replacement stands for something that is to be replaced. -/
lemma IsEdit.isSite (h : b.IsEdit keys s) : b.IsSite s.start s.stop := by
  cases h with
  | phrase hspan hresolved hx =>
    obtain ⟨hp, hmarked⟩ := hresolved.mem_phrases hx
    exact .phrase hspan hp hmarked
  | literal hexpression hspan hopens hdecode hresolved hne =>
    obtain ⟨x, hx⟩ := exists_mem_of_ne_nil _ hne
    obtain ⟨hp, hmarked⟩ := hresolved.mem_phrases hx
    exact .literal hexpression hspan hopens hdecode hp hmarked
  | value ha hbound hresolved hne =>
    obtain ⟨x, hx⟩ := exists_mem_of_ne_nil _ hne
    obtain ⟨hp, hmarked⟩ := hresolved.mem_phrases hx
    exact .value ha hbound hp hmarked

/-- All that is to be replaced is replaced. -/
lemma exists_splice_of_isSite (h : b.IsSite start stop) (hrun : Runs b.splices l out l') :
    ∃ s ∈ out, s.start = start ∧ s.stop = stop := by
  cases h with
  | @phrase span p hspan hp hmarked =>
    obtain ⟨m, out', m', hrun', hsubset, -⟩ := isolates_plainText hspan l out l' hrun
    obtain ⟨resolved, -, hassigned, rfl⟩ := runs_plainTextSplices hrun'
    obtain ⟨x, hx, rfl⟩ := hassigned.exists_mem hp hmarked
    exact ⟨_, hsubset (mem_map_of_mem hx), rfl, rfl⟩
  | @literal quote first last span decoded p hexpression hspan hopens hdecode hp hmarked =>
    obtain ⟨m, out', m', hrun', hsubset, -⟩ := isolates_literal hexpression hspan l out l' hrun
    rcases runs_literalSplice hrun' with
      ⟨hopens', -, -⟩ | ⟨-, -, decoded', resolved, hdecode', hassigned, rfl⟩
    · rw [hopens] at hopens'
      cases hopens'
    · obtain rfl := Except.ok.inj (hdecode.symm.trans hdecode')
      obtain ⟨x, hx, -⟩ := hassigned.exists_mem hp hmarked
      rw [if_neg (by simpa using ne_nil_of_mem hx)] at hsubset
      exact ⟨_, hsubset mem_cons_self, rfl, rfl⟩
  | @value a p ha hbound hp hmarked =>
    obtain ⟨m, out', m', hrun', hsubset, -⟩ := isolates_attribute ha l out l' hrun
    rw [attributeSplices, if_neg (by simpa using hbound)] at hrun'
    obtain ⟨resolved, -, hassigned, rfl⟩ := runs_staticSplice hrun'
    obtain ⟨x, hx, -⟩ := hassigned.exists_mem hp hmarked
    rw [if_neg (by simpa using ne_nil_of_mem hx)] at hsubset
    exact ⟨_, hsubset mem_cons_self, rfl, rfl⟩

/-! ## Failures -/

/-- **Why a conversion can fail.** -/
inductive Hindrance (b : TemplateBlock) : Failure → Prop where
  /-- A string literal that is not the argument of a lookup cannot be decoded. -/
  | escape {quote : Option QuoteMark} {start stop : Nat} {span : Nat × Nat} {e : EscapeError}
      (hexpression : (quote, start, stop) ∈ b.expressions)
      (hspan : span ∈ stringLiterals (b.content.slice start stop))
      (hopens : opensLookup b.callName ((b.content.slice start stop).take span.1) = false)
      (hdecode : decodeLiteral (literalInside (b.content.slice start stop) span) = .error e) :
    Hindrance b (.badEscape e)
  /-- A function of the caller refuses a key. -/
  | refused {failure : Failure} (h : b.extractor.options.keys.Refuses failure) : Hindrance b failure

lemma failsBy_resolveAll (offset : Phrase → Nat) :
    ∀ phrases : List Phrase, FailsBy b.Hindrance (b.resolveAll offset phrases)
  | [] => .pure _
  | p :: rest =>
    ((failsBy_resolveKey _ _ _ _ p.full).imp fun _ => .refused).bind fun _ =>
      (failsBy_resolveAll offset rest).bind fun _ => .pure _

/-- **Steps fail for one of these reasons only.** -/
theorem Steps.failsBy (h : b.Steps x) : FailsBy b.Hindrance x := by
  induction h with
  | nothing => exact .pure _
  | both _ _ hx hy => exact hx.bind fun _ => hy.bind fun _ => .pure _
  | text => exact (failsBy_resolveAll _ _).bind fun _ => .pure _
  | literal hexpression hspan =>
    rw [literalSplice]
    split_ifs with hopens
    · exact .pure _
    · simp only
      split
      · rename_i e hdecode
        exact .throw (.escape hexpression hspan (by simpa using hopens) hdecode)
      · refine (failsBy_resolveAll _ _).bind fun resolved => ?_
        split_ifs <;> exact .pure _
  | value =>
    refine (failsBy_resolveAll _ _).bind fun resolved => ?_
    split_ifs <;> exact .pure _

/-- What can keep a template from its replacements. -/
lemma failsBy_splices (b : TemplateBlock) : FailsBy b.Hindrance b.splices := (steps_splices b).failsBy

/-! ## The conversion -/

lemma le_of_mem_partsFrom (hpart : part ∈ partsFrom offset pieces) : offset ≤ part.span.1 := by
  induction pieces generalizing offset with
  | nil => exact absurd hpart not_mem_nil
  | cons piece rest ih =>
    cases piece with
    | comment t => exact (Nat.le_add_right _ _).trans (ih hpart)
    | text t | tag t =>
      rcases mem_cons.mp hpart with rfl | hpart
      · exact Nat.le_refl _
      · exact (Nat.le_add_right _ _).trans (ih hpart)

lemma le_of_mem_commentsFrom (hc : c ∈ commentsFrom offset pieces) : offset ≤ c.1 := by
  induction pieces generalizing offset with
  | nil => exact absurd hc not_mem_nil
  | cons piece rest ih =>
    cases piece with
    | comment t =>
      rcases mem_cons.mp hc with rfl | hc
      · exact Nat.le_refl _
      · exact (Nat.le_add_right _ _).trans (ih hc)
    | text t | tag t => exact (Nat.le_add_right _ _).trans (ih hc)

/-- Parts and comments do not overlap. -/
lemma apart_of_mem_partsFrom (hpart : part ∈ partsFrom offset pieces) (hc : c ∈ commentsFrom offset pieces) :
    part.span.2 ≤ c.1 ∨ c.2 ≤ part.span.1 := by
  induction pieces generalizing offset with
  | nil => exact absurd hpart not_mem_nil
  | cons piece rest ih =>
    cases piece with
    | text t =>
      rcases mem_cons.mp hpart with rfl | hpart
      · exact .inl (le_of_mem_commentsFrom hc)
      · exact ih hpart hc
    | comment t =>
      rcases mem_cons.mp hc with rfl | hc
      · exact .inr (le_of_mem_partsFrom hpart)
      · exact ih hpart hc
    | tag t =>
      rcases mem_cons.mp hpart with rfl | hpart
      · exact .inl (le_of_mem_commentsFrom hc)
      · exact ih hpart hc

/-- A replacement lies in one part of the template. -/
lemma exists_part_of_mem (hrun : Runs b.splices l out l') (hs : s ∈ out) :
    ∃ part ∈ markupParts b.content, part.span.1 ≤ s.start ∧ s.stop ≤ part.span.2 := by
  obtain ⟨part, hpart, m, out', m', hrun', hs⟩ := exists_run_of_mem_gather hrun hs
  have hle := (follow_markupParts b.content).le_of_mem hpart
  obtain ⟨hord, -⟩ := b.fills_partSplices hle m out' m' hrun'
  obtain ⟨hstart, -, hstop⟩ := (inOrder_iff.mp hord).2.1 s hs
  exact ⟨part, hpart, hstart, hstop⟩

/-- **What the conversion of a template does.** The template is a sequence of tags, texts and comments,
and the scanner finds its tags and texts. If the conversion does not fail, then

* its replacements stand in order, and none of them is empty or overlaps another;
* what is to be replaced is replaced, and nothing else is;
* none of them overlaps a comment;
* the result is the template with just these replacements made;
* the changes are those of the replacements in their order, each with the span of its replacement,
  counted from where the template begins.

If it fails, a literal cannot be decoded or a function of the caller refuses a key. -/
theorem convert_edits (b : TemplateBlock) (l : Ledger) :
    ∃ pieces, IsCut pieces ∧ joined pieces = b.content ∧
      markupParts b.content = partsFrom 0 pieces ∧
      ((∃ splices l',
          Runs b.convert l (spliceFrom b.content 0 splices, splices.map b.change) l' ∧
          InOrder b.content.length 0 splices ∧
          (∀ s ∈ splices, b.IsEdit l'.keys s) ∧
          (∀ start stop, b.IsSite start stop ↔ ∃ s ∈ splices, s.start = start ∧ s.stop = stop) ∧
          (∀ s ∈ splices, ∀ c ∈ commentsFrom 0 pieces, s.stop ≤ c.1 ∨ c.2 ≤ s.start) ∧
          (splices.map b.change).map Change.span? =
            splices.map (fun s => some (((b.start + s.start : Nat) : Int), ↑(b.start + s.stop))) ∧
          (splices.map b.change).Pairwise fun c c' => c.stop.getD 0 ≤ c'.start.getD 0) ∨
        ∃ failure l', b.convert.run.run l = (.error failure, l') ∧ b.Hindrance failure) := by
  obtain ⟨pieces, hcut, hjoined⟩ := exists_cut b.content
  have hparts : markupParts b.content = partsFrom 0 pieces := by
    rw [← hjoined, markupParts_joined hcut]
  refine ⟨pieces, hcut, hjoined, hparts, ?_⟩
  rcases hrun : b.splices.run.run l with ⟨failure | splices, l'⟩
  · refine .inr ⟨failure, l', ?_, failsBy_splices b l failure l' hrun⟩
    rw [convert, run_bind, hrun]
  · have hruns : Runs b.splices l splices l' := hrun
    have hord := (b.fills_splices l splices l' hruns).1
    have hedits := ((steps_splices b).edits l splices l' hruns).2
    refine .inl ⟨splices, l', ?_, hord, hedits, fun start stop => ⟨fun h => ?_, ?_⟩, ?_, ?_, ?_⟩
    · exact b.runs_convert.mpr ⟨splices, hruns, rfl⟩
    · exact exists_splice_of_isSite h hruns
    · rintro ⟨s, hs, rfl, rfl⟩
      exact (hedits s hs).isSite
    · intro s hs c hc
      obtain ⟨part, hpart, hstart, hstop⟩ := exists_part_of_mem hruns hs
      rw [hparts] at hpart
      rcases apart_of_mem_partsFrom hpart hc with happart | happart
      · exact .inl (hstop.trans happart)
      · exact .inr (happart.trans hstart)
    · rw [map_map]
      rfl
    · refine pairwise_map.mpr ((inOrder_iff.mp hord).2.2.imp fun {s s'} hle => ?_)
      simp only [change, Change.make, Option.getD_some]
      omega

/-- A comment, and a phrase in an attribute, in text and in an expression. -/
theorem convert_edits_beside_comment :
    let delimiter := (Delimiter.ofText "(a)").toOption.get (by with_unfolding_all rfl)
    let b : TemplateBlock :=
      ⟨⟨[], "f.vue", {}, delimiter, []⟩, 5, "<!--a--><p x='a'>a\x7b\x7b'a'\x7d\x7d", "$t"⟩
    let output : Text :=
      "<!--a--><p :x='$t(\"a\")'>\x7b\x7b $t(\"a\") \x7d\x7d\x7b\x7b$t(\"a\")\x7d\x7d"
    ∃ splices l', Runs b.convert {} (spliceFrom b.content 0 splices, splices.map b.change) l' ∧
      spliceFrom b.content 0 splices = output ∧ InOrder b.content.length 0 splices := by
  intro delimiter b output
  have hout : (b.convert.run.run {}).1.toOption.any (fun result => result.1 == output) = true := by
    decide +kernel
  have hspec := convert_edits b {}
  obtain ⟨pieces, -, -, -, ⟨splices, l', hrun, hord, -⟩ | ⟨failure, l', hrun, -⟩⟩ := hspec
  · rw [show b.convert.run.run {} = _ from hrun] at hout
    have hsame : (spliceFrom b.content 0 splices == output) = true := hout
    exact ⟨splices, l', hrun, eq_of_beq hsame, hord⟩
  · rw [hrun] at hout
    cases hout

/-- An escape that stands for no character keeps a template from being converted, although no phrase is
marked in it. -/
theorem convert_fails_on_escape :
    let delimiter := (Delimiter.ofText "(a)").toOption.get (by with_unfolding_all rfl)
    let b : TemplateBlock :=
      ⟨⟨[], "f.vue", {}, delimiter, []⟩, 0, "\x7b\x7b '\\u\x7b110000\x7d' \x7d\x7d", "$t"⟩
    delimiter.phrases b.content = [] ∧ (b.convert.run.run {}).1.toOption.isNone = true := by
  decide +kernel

end TemplateBlock

end Phrasebook
