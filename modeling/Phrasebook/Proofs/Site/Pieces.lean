import Phrasebook.Proofs.Site.Layout

/-!
# What is written for a template literal

A template literal in which phrases get calls is cut into pieces: runs of items that are kept, and runs that
are phrases. A kept run is written as it is, with its expressions in their substitutions; a phrase is
written as a call, with its expressions as arguments.

## Main results

* `TemplateText.Lays.exists_pieces` — the pieces are all of the literal, in order.
* `TemplateSite.written_build` — every expression is written once.
-/

namespace Phrasebook

open List TemplateItem

variable {p : Phrase} {run : List TemplateItem}

/-- A piece of a template literal in which phrases get calls. -/
inductive TemplatePiece where
  | kept (items : List TemplateItem)
  /-- The items of a phrase, which gets a call for a key. -/
  | call (p : Phrase) (key : Key) (items : List TemplateItem)

namespace TemplatePiece

/-- The items of a piece. -/
def items : TemplatePiece → List TemplateItem
  | kept items => items
  | call _ _ items => items

/-- The phrase of a piece and its key. -/
def call? : TemplatePiece → Option (Phrase × Key)
  | kept _ => none
  | call p key _ => some (p, key)

/-- What is written for a piece inside of a template literal. -/
def written (o : Options) (callName : Text) (render : TemplateSite.Renderer) : TemplatePiece → Text
  | kept items => fill render items
  | call p key items =>
    substitution (callWith callName key (arguments render items) ++ o.comment (canonicalize p.payload) true)

/-- Pieces behind items that are done, each call at the offsets of its phrase. -/
def InPlace (done : List TemplateItem) : List TemplatePiece → Prop
  | [] => True
  | kept items :: rest => InPlace (done ++ items) rest
  | call p _ items :: rest =>
    (p.start = (spell 0 done).length ∧ p.stop = p.start + (spell (holes done).length items).length) ∧
      InPlace (done ++ items) rest

end TemplatePiece

variable {items : List TemplateItem} {o : Options} {s : TemplateSite}

/-- A template literal is cut into pieces: they are all of it, and the calls among them are those of the
phrases with keys, where these stand. -/
structure IsCutInto (items : List TemplateItem) (resolved : List (Phrase × Key))
    (pieces : List TemplatePiece) : Prop where
  items_eq : pieces.flatMap TemplatePiece.items = items
  calls_eq : pieces.filterMap TemplatePiece.call? = resolved
  inPlace : TemplatePiece.InPlace [] pieces

/-- **What is written in the place of a template literal.** A literal that is one phrase becomes a call;
else it stays a template literal, and its pieces are written one after the other. -/
def TemplateSite.Written (o : Options) (s : TemplateSite) (items : List TemplateItem) (render : Renderer)
    (out : Text) : Prop :=
  ∃ pieces, IsCutInto items s.resolved pieces ∧
    if s.full then ∃ p key, pieces = [.call p key items] ∧
      out = callWith s.callName key (TemplateItem.arguments render items) ++
        o.comment (canonicalize p.payload) (!s.bare)
    else out = backticked (pieces.flatMap (TemplatePiece.written o s.callName render))

namespace TemplateItem

/-- Every item is spelled with something. -/
lemma length_le_length_spell (n : Nat) (items : List TemplateItem) :
    items.length ≤ (spell n items).length := by
  induction items generalizing n with
  | nil => exact le_refl 0
  | cons item items ih =>
    cases item with
    | point c => exact Nat.succ_le_succ (ih n)
    | hole start stop =>
      have hpos := length_markerText_pos n
      have hrest := ih (n + 1)
      rw [spell, length_append, length_cons]
      omega

lemma eq_nil_of_spell {n : Nat} {items : List TemplateItem} (h : (spell n items).length = 0) :
    items = [] :=
  length_eq_zero_iff.mp (Nat.le_zero.mp (h ▸ length_le_length_spell n items))

/-- Of two beginnings of the same items, the one that is spelled further is the longer one. -/
lemma prefix_of_spell_le {a b a' b' : List TemplateItem} (h : a ++ a' = b ++ b')
    (hle : (spell 0 a).length ≤ (spell 0 b).length) : ∃ gap, b = a ++ gap ∧ a' = gap ++ b' := by
  rcases append_eq_append_iff.mp h with ⟨gap, hb, ha'⟩ | ⟨extra, rfl, rfl⟩
  · exact ⟨gap, hb, ha'⟩
  · rw [spell_append, length_append] at hle
    obtain rfl := @eq_nil_of_spell (0 + (holes b).length) extra (by omega)
    exact ⟨[], by simp, by simp⟩

end TemplateItem

namespace TemplateSite

/-- A call for a run of items, if calls are not written by the caller. -/
lemma lookup_eq (ho : o.writeCall = none) (h : s.text.Lays items) (render : Renderer) (blockOnly : Bool)
    (key : Key) (hrun : Occupies items p run) :
    s.lookup o render blockOnly p key = callWith s.callName key (TemplateItem.arguments render run) ++
      o.comment (canonicalize p.payload) blockOnly := by
  rw [lookup, Options.lookup, Options.call_eq_callWith ho, h.arguments_eq render hrun]

end TemplateSite

/-- **The walk over phrases writes pieces**, from items that are done on.

**Proof sketch.** Induction on the phrases. What stands before the next phrase is a run that is kept, and
the phrase itself is a run that gets a call; the rest is what the walk goes on with. -/
theorem TemplateText.Lays.exists_pieces (ho : o.writeCall = none) (h : s.text.Lays items)
    (render : TemplateSite.Renderer) {resolved : List (Phrase × Key)}
    (hpair : resolved.Pairwise fun a b => a.1.stop ≤ b.1.start)
    (hruns : ∀ x ∈ resolved, ∃ run, Occupies items x.1 run) {done rest : List TemplateItem} {cursor : Nat}
    (hitems : items = done ++ rest) (hcursor : cursor = (spell 0 done).length)
    (hbehind : ∀ x ∈ resolved, cursor ≤ x.1.start) :
    ∃ pieces, pieces.flatMap TemplatePiece.items = rest ∧
      pieces.filterMap TemplatePiece.call? = resolved ∧ TemplatePiece.InPlace done pieces ∧
      interpolate (s.segment render) (fun p key => substitution (s.lookup o render true p key))
        s.text.combined.length cursor resolved =
        pieces.flatMap (TemplatePiece.written o s.callName render) := by
  induction resolved generalizing done rest cursor with
  | nil =>
    refine ⟨[.kept rest], by simp [TemplatePiece.items], rfl, trivial, ?_⟩
    have hlength : s.text.combined.length = cursor + (spell (holes done).length rest).length := by
      rw [h.combined, hitems, spell_append, length_append, hcursor, Nat.zero_add]
    have hall : items = done ++ (rest ++ []) := by rw [hitems, append_nil]
    rw [interpolate, h.segment_eq render hall hcursor hlength]
    simp [TemplatePiece.written]
  | cons x resolved ih =>
    obtain ⟨p, key⟩ := x
    obtain ⟨hnext, hpair'⟩ := pairwise_cons.mp hpair
    obtain ⟨run, hrun⟩ := hruns _ mem_cons_self
    have hlookup := TemplateSite.lookup_eq ho h render true key hrun
    obtain ⟨before, after, hsplit, hstart, hstop⟩ := hrun
    have hle : cursor ≤ p.start := hbehind _ mem_cons_self
    -- the phrase stands behind what is done
    obtain ⟨gap, rfl, rfl⟩ := prefix_of_spell_le (hitems.symm.trans hsplit)
      (by rw [← hcursor, ← hstart]; exact hle)
    simp only at hstart hstop
    have hdone : p.stop = (spell 0 (done ++ gap ++ run)).length := by
      rw [spell_append 0 (done ++ gap), length_append, ← hstart, Nat.zero_add, ← hstop]
    have hrest : items = (done ++ gap ++ run) ++ after := hsplit.trans (append_assoc _ _ _).symm
    obtain ⟨pieces, hflat, hcalls, hplace, hwritten⟩ :=
      ih hpair' (fun y hy => hruns y (mem_cons_of_mem _ hy)) hrest hdone hnext
    refine ⟨.kept gap :: .call p key run :: pieces, ?_, ?_, ⟨⟨hstart, hstop⟩, hplace⟩, ?_⟩
    · simp [TemplatePiece.items, hflat]
    · exact congrArg ((p, key) :: ·) hcalls
    · have hgap : p.start = cursor + (spell (holes done).length gap).length := by
        rw [hstart, spell_append, length_append, hcursor, Nat.zero_add]
      rw [interpolate, h.segment_eq render hitems hcursor hgap, hlookup, hwritten]
      simp [TemplatePiece.written]

/-- The phrases with keys of a template: they follow each other, are not empty, end in its text and cut
through no marker; and if the template is one phrase, this is all of it. -/
structure TemplateSite.IsSound (s : TemplateSite) : Prop where
  pairwise : s.resolved.Pairwise fun a b => a.1.stop ≤ b.1.start
  lt : ∀ x ∈ s.resolved, x.1.start < x.1.stop
  stop_le : ∀ x ∈ s.resolved, x.1.stop ≤ s.text.combined.length
  uncut : ∀ x ∈ s.resolved, ∀ m ∈ s.text.markers, m.cutBy x.1 = false
  full : s.full = true →
    ∃ p key, s.resolved = [(p, key)] ∧ p.start = 0 ∧ p.stop = s.text.combined.length

/-- A phrase that is all of a text is all of its items. -/
lemma TemplateItem.Occupies.eq_all (h : Occupies items p run)
    (hstart : p.start = 0) (hstop : p.stop = (spell 0 items).length) : run = items := by
  obtain ⟨before, after, rfl, hbefore, hrun⟩ := h
  obtain rfl := eq_nil_of_spell (hbefore.symm.trans hstart)
  rw [nil_append, spell_append, length_append, hrun, hstart] at hstop
  simp only [holes, filterMap_nil, length_nil, Nat.zero_add] at hstop
  obtain rfl := @eq_nil_of_spell _ after (by simpa [holes] using hstop)
  simp

/-- **The replacement of a template literal is written from its pieces.** -/
theorem TemplateSite.written_build (ho : o.writeCall = none) (h : s.text.Lays items) (hs : s.IsSound)
    (render : Renderer) : s.Written o items render (s.build o render) := by
  have hruns : ∀ x ∈ s.resolved, ∃ run, Occupies items x.1 run := fun x hx =>
    h.exists_occupies (hs.lt x hx) (hs.stop_le x hx) (hs.uncut x hx)
  cases hfull : s.full with
  | true =>
    obtain ⟨p, key, hresolved, hstart, hstop⟩ := hs.full hfull
    obtain ⟨run, hrun⟩ := hruns (p, key) (by simp [hresolved])
    rw [h.combined] at hstop
    obtain rfl := hrun.eq_all hstart hstop
    refine ⟨[.call p key run],
      ⟨by simp [TemplatePiece.items], by simp [TemplatePiece.call?, hresolved], ?_⟩, ?_⟩
    · refine ⟨⟨hstart, ?_⟩, trivial⟩
      rw [hstop, hstart, Nat.zero_add]
      rfl
    · rw [if_pos hfull]
      refine ⟨p, key, rfl, ?_⟩
      rw [build, hfull, hresolved]
      exact lookup_eq ho h render (!s.bare) key hrun
  | false =>
    obtain ⟨pieces, hflat, hcalls, hplace, hwritten⟩ :=
      h.exists_pieces ho render hs.pairwise hruns (nil_append items).symm rfl fun x _ => Nat.zero_le _
    refine ⟨pieces, ⟨hflat, hcalls, hplace⟩, ?_⟩
    rw [if_neg (by simp [hfull]), build, hfull]
    exact congrArg backticked hwritten

end Phrasebook
