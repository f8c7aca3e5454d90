import Phrasebook.Proofs.Component.Edits
import Phrasebook.Proofs.Component.Scan
import Phrasebook.Proofs.Pattern.Locality

/-!
# Templates in which nothing is left to replace

In a settled template no text outside of expressions and no value of an attribute marks a phrase, and
every string literal of an expression is the argument of a lookup or marks no phrase either.

## Main results

* `TemplateBlock.idle_splices` — converting such a template makes no replacement and records nothing.
-/

namespace Phrasebook

open List Text

variable {start stop : Nat} {u r t : Text} {pieces : List Piece}

/-! ## Settled templates -/

/-- What marks phrases and lookups in a template. -/
structure Marking where
  delimiter : Delimiter
  callName : Text

/-- The marks of a template block. -/
def TemplateBlock.marking (b : TemplateBlock) : Marking := ⟨b.extractor.delimiter, b.callName⟩

/-- Whether the value of an attribute is an expression. -/
def AttributeText.isBound (a : AttributeText) : Bool := (a.placed 0).isBound

namespace Marking

variable (m : Marking)

/-- The inside of a string literal that marks no phrase. -/
def LiteralSettled (raw : Text) : Prop :=
  ∃ decoded, decodeLiteral raw = .ok decoded ∧ m.delimiter.IsSilent decoded.text

/-- An expression whose literals are arguments of lookups or mark no phrase. -/
def ExpressionSettled (e : Text) : Prop :=
  ∀ span ∈ stringLiterals e,
    opensLookup m.callName (e.take span.1) = true ∨ m.LiteralSettled (literalInside e span)

/-- Text between tags that marks no phrase, with settled expressions in it. -/
inductive TextSettled (m : Marking) : Text → Prop where
  | gap {g : Text} (hgap : Barren mustacheAt? 0 g []) (hsilent : m.delimiter.IsSilent g) :
    TextSettled m g
  | expression {g e rest : Text} (hgap : Unpaired (.scalar '\x7b') (g ++ [.scalar '\x7b']))
      (hsilent : m.delimiter.IsSilent g) (hclosed : Unpaired (.scalar '\x7d') (e ++ [.scalar '\x7d']))
      (he : m.ExpressionSettled e) (hrest : TextSettled m rest) :
    TextSettled m (g ++ (mustache e ++ rest))

/-- An attribute whose value marks no phrase, or is a settled expression. -/
def ValueSettled (a : AttributeText) : Prop :=
  if a.isBound then m.ExpressionSettled a.value else m.delimiter.IsSilent a.value

/-- Settled attributes one behind the other. -/
inductive AttributesSettled (m : Marking) : Text → Prop where
  | gap {g : Text} (hgap : Barren attributeIn? 0 g []) : AttributesSettled m g
  | found {g rest : Text} {a : AttributeText} (hgap : Barren attributeIn? 0 g (a.text ++ rest))
      (ha : m.ValueSettled a) (hrest : AttributesSettled m rest) :
    AttributesSettled m (g ++ (a.text ++ rest))

/-- A tag with settled attributes. -/
def TagSettled (tag : Text) : Prop :=
  ∃ name rest, tag = name ++ rest ∧ name.length = tagNameLength tag ∧ m.AttributesSettled rest

/-- A piece of markup in which nothing is left to replace. -/
def PieceSettled : Piece → Prop
  | .text t => m.TextSettled t
  | .comment _ => True
  | .tag t => m.TagSettled t

end Marking

/-! ## Steps that do nothing -/

/-- A step that gives no replacements and records nothing. -/
def Idle (x : Bookkeeping (List Splice)) : Prop := ∀ l, Runs x l [] l

namespace Idle

variable {x y : Bookkeeping (List Splice)}

lemma both (hx : Idle x) (hy : Idle y) : Idle (TemplateBlock.both x y) := fun l =>
  runs_bind.mpr ⟨[], l, hx l, runs_bind.mpr ⟨[], l, hy l, runs_pure.mpr ⟨rfl, rfl⟩⟩⟩

lemma gather {α : Type} {step : α → Bookkeeping (List Splice)} :
    ∀ {xs : List α}, (∀ a ∈ xs, Idle (step a)) → Idle (TemplateBlock.gather step xs)
  | [], _ => fun _ => runs_pure.mpr ⟨rfl, rfl⟩
  | a :: _, h => (h a mem_cons_self).both (gather fun c hc => h c (mem_cons_of_mem a hc))

end Idle

namespace TemplateBlock

variable {b : TemplateBlock}

/-- What is no phrase when read again gets no key. -/
lemma runs_resolveAll_of_unmarked (offset : Phrase → Nat) {phrases : List Phrase}
    (h : ∀ p ∈ phrases, b.extractor.delimiter.phrase? p.full = none) (l : Ledger) :
    Runs (b.resolveAll offset phrases) l [] l := by
  induction phrases with
  | nil => exact runs_pure.mpr ⟨rfl, rfl⟩
  | cons p rest ih =>
    obtain ⟨hp, hrest⟩ := forall_mem_cons.mp h
    have hkey : Runs (b.resolve (offset p) p) l none l := by
      simp only [resolve, resolveKey, hp]
      exact runs_pure.mpr ⟨rfl, rfl⟩
    exact runs_bind.mpr ⟨none, l, hkey, runs_bind.mpr ⟨[], l, ih hrest, runs_pure.mpr ⟨rfl, rfl⟩⟩⟩

/-- Text without phrases is left as it is. -/
lemma idle_plainTextSplices (h : b.marking.delimiter.IsSilent (b.content.slice start stop)) :
    Idle (b.plainTextSplices start stop) := fun l =>
  runs_bind.mpr ⟨[], l, runs_resolveAll_of_unmarked _ h l, runs_pure.mpr ⟨rfl, rfl⟩⟩

/-- So is a value without phrases. -/
lemma idle_staticSplice {a : Attribute} (h : b.marking.delimiter.IsSilent (b.valueOf a)) :
    Idle (b.staticSplice a) := fun l =>
  runs_bind.mpr ⟨[], l, runs_resolveAll_of_unmarked _ h l, runs_pure.mpr ⟨rfl, rfl⟩⟩

/-- So is a settled expression. -/
lemma idle_expressionSplices (quote : Option QuoteMark)
    (h : b.marking.ExpressionSettled (b.content.slice start stop)) :
    Idle (b.expressionSplices quote start stop) := by
  rw [expressionSplices]
  refine Idle.gather fun span hspan l => ?_
  rw [literalSplice]
  split_ifs with hopens
  · exact runs_pure.mpr ⟨rfl, rfl⟩
  · obtain hlookup | ⟨decoded, hdecode, hsilent⟩ := h span hspan
    · exact absurd hlookup hopens
    · rw [literalInside] at hdecode
      simp only [hdecode]
      exact runs_bind.mpr
        ⟨[], l, runs_resolveAll_of_unmarked _ hsilent l, runs_pure.mpr ⟨rfl, rfl⟩⟩

/-- So is settled text with its expressions. -/
lemma idle_textSplices (h : b.marking.TextSettled t)
    (hcontent : b.content = u ++ (t ++ r)) (hstart : start = u.length) (hstop : stop = start + t.length) :
    Idle (b.textSplices start stop (mustaches start t)) := by
  induction h generalizing u start with
  | @gap g hgap hsilent =>
    have hnone : mustaches start g = [] := by
      rw [mustaches, mustachesFrom_eq]
      exact (Scanned.done (hgap.move movable_mustacheAt? _)).scan_eq
    rw [hnone, textSplices]
    exact idle_plainTextSplices (by rwa [slice_of_eq hcontent hstart hstop])
  | @expression g e rest hgap hsilent hclosed he hrest ih =>
    have hne : mustache e ≠ [] := cons_ne_nil _ _
    have hms : mustaches start (g ++ (mustache e ++ rest)) =
        (start + g.length + 2, start + g.length + 2 + e.length) ::
          mustaches (start + g.length + (mustache e).length) rest := by
      rw [mustaches, mustachesFrom_eq, scan_gap (barren_mustacheAt? hgap _ _),
        scan_found hne (mustacheAt?_mustache hclosed _ rest), mustaches, mustachesFrom_eq]
    rw [hms, textSplices_cons]
    rw [length_append, length_append, length_mustache] at hstop
    rw [length_mustache]
    refine ((idle_plainTextSplices ?_).both (idle_expressionSplices none ?_)).both ?_
    · have hslice : b.content.slice start (start + g.length + 2 - 2) = g :=
        slice_of_eq (r := mustache e ++ rest ++ r) (by rw [hcontent]; simp) hstart (by omega)
      rwa [hslice]
    · have hslice : b.content.slice (start + g.length + 2) (start + g.length + 2 + e.length) = e :=
        slice_of_eq (u := u ++ g ++ mustacheOpening) (r := mustacheClosing ++ rest ++ r)
          (by rw [hcontent]; simp [mustache]) (by simp [mustacheOpening]; omega) rfl
      rwa [hslice]
    · rw [show start + g.length + (e.length + 4) = start + g.length + 2 + e.length + 2 by omega]
      refine ih (u := u ++ g ++ mustache e) (by rw [hcontent]; simp) ?_ (by omega)
      simp only [length_append, length_mustache]
      omega

/-- So are settled attributes. -/
lemma idle_attributeSplices (h : b.marking.AttributesSettled t)
    (hcontent : b.content = u ++ (t ++ r)) (hstart : start = u.length) :
    Idle (gather b.attributeSplices (attributesFrom start 0 t)) := by
  rw [attributesFrom_eq]
  induction h generalizing u start with
  | @gap g hgap =>
    rw [(Scanned.done (hgap.move movable_attributeIn? _)).scan_eq]
    exact Idle.gather fun a ha => absurd ha not_mem_nil
  | @found g rest a hgap ha hrest ih =>
    have hne : a.text ≠ [] := append_ne_nil_of_right_ne_nil _ (cons_ne_nil _ _)
    rw [scan_gap (hgap.move movable_attributeIn? _), scan_found hne (a.attributeIn?_append _ rest),
      gather_cons]
    have hvalue : b.content.slice (a.placed (start + g.length)).valueStart
        (a.placed (start + g.length)).valueStop = a.value :=
      slice_of_eq (u := u ++ g ++ a.opening) (r := [a.quote.point] ++ rest ++ r)
        (by rw [hcontent]; simp [AttributeText.text]) (by simp [AttributeText.placed]; omega) rfl
    refine Idle.both ?_ (ih (u := u ++ g ++ a.text) (by rw [hcontent]; simp)
      (by simp only [length_append]; omega))
    have hbound : (a.placed (start + g.length)).isBound = a.isBound := rfl
    rw [Marking.ValueSettled] at ha
    rw [attributeSplices, hbound]
    split_ifs at ha ⊢ with hbound
    · exact idle_expressionSplices _ (by rwa [hvalue])
    · exact idle_staticSplice (by rwa [valueOf, hvalue])

/-- The attributes of a tag are those behind its name. -/
lemma attributesOf_append (offset : Nat) {name rest : Text} (h : name.length = tagNameLength (name ++ rest)) :
    attributesOf offset (name ++ rest) = attributesFrom (offset + name.length) 0 rest := by
  rw [attributesOf, attributesFrom_eq, attributesFrom_eq, ← h, scan_skip]

lemma idle_pieces (h : ∀ piece ∈ pieces, b.marking.PieceSettled piece) {offset : Nat}
    (hcontent : b.content = u ++ joined pieces) (hoffset : offset = u.length) :
    Idle (gather b.partSplices (partsFrom offset pieces)) := by
  induction pieces generalizing u offset with
  | nil => exact Idle.gather fun part hpart => absurd hpart not_mem_nil
  | cons piece rest ih =>
    obtain ⟨hpiece, hrest⟩ := forall_mem_cons.mp h
    rw [joined_cons] at hcontent
    have hothers : Idle (gather b.partSplices (partsFrom (offset + piece.content.length) rest)) :=
      ih hrest (u := u ++ piece.content) (by rw [hcontent, append_assoc])
        (by rw [length_append, hoffset])
    have hslice : b.content.slice offset (offset + piece.content.length) = piece.content :=
      slice_of_eq hcontent hoffset rfl
    cases piece with
    | comment t => exact hothers
    | text t =>
      refine Idle.both ?_ hothers
      rw [partSplices, show b.content.slice offset (offset + t.length) = t from hslice]
      exact idle_textSplices hpiece hcontent hoffset rfl
    | tag t =>
      refine Idle.both ?_ hothers
      rw [partSplices, show b.content.slice offset (offset + t.length) = t from hslice]
      obtain ⟨name, attributes, rfl, hlen, hattributes⟩ := hpiece
      rw [attributesOf_append offset hlen]
      exact idle_attributeSplices hattributes (u := u ++ name) (r := joined rest)
        (by rw [hcontent]; simp [Piece.content]) (by rw [length_append, hoffset])

/-- **A settled template is left alone.** -/
theorem idle_splices (hcut : IsCut pieces) (hcontent : b.content = joined pieces)
    (h : ∀ piece ∈ pieces, b.marking.PieceSettled piece) : Idle b.splices := by
  rw [splices, hcontent, markupParts_joined hcut]
  exact idle_pieces h (u := []) hcontent rfl

end TemplateBlock

end Phrasebook
