import Phrasebook.Delimiter
import Phrasebook.Tree.Node

/-!
# Template literals

To look for phrases in a template literal, its substitutions are replaced by numbered markers. A
phrase may hold markers, but it must not cut through one.

## Main definitions

* `TemplateText.ofNode?` — the text of a template literal with markers.
* `TemplateText.phrases` — its phrases that cut through no marker.
-/

namespace Phrasebook

/-- A marker in the text of a template, and the expression that it stands for. -/
structure Marker where
  start : Nat
  stop : Nat
  /-- Where the expression begins in the source. -/
  expressionStart : Nat
  /-- Where the expression ends in the source. -/
  expressionStop : Nat
  deriving DecidableEq

namespace Marker

/-- Whether a marker lies within a span. -/
def within (m : Marker) (start stop : Nat) : Bool := start ≤ m.start && m.stop ≤ stop

/-- Whether a marker and a span overlap. -/
def meets (m : Marker) (start stop : Nat) : Bool := start < m.stop && m.start < stop

/-- Whether a phrase cuts through a marker. -/
def cutBy (m : Marker) (p : Phrase) : Bool :=
  m.meets p.start p.stop && !m.within p.start p.stop

end Marker

/-- The text of a template with markers for its substitutions. -/
structure TemplateText where
  combined : Text
  markers : List Marker
  deriving DecidableEq

namespace TemplateText

/-- The marker with a number. -/
def markerText (n : Nat) : Text := "$\x7b" ++ Text.ofNat n ++ "\x7d"

/-- Add the source from `cursor` up to a substitution and the marker for it; none if the substitution
is empty. The offset behind it is given as well. -/
def addSubstitution (t : Text) (state : TemplateText × Nat) (sub : Node) :
    Option (TemplateText × Nat) :=
  match sub.contents.head?, sub.contents.getLast? with
  | some first, some last =>
    let before := state.1.combined ++ t.slice state.2 sub.start
    let after := before ++ markerText state.1.markers.length
    some (⟨after, state.1.markers ++ [⟨before.length, after.length, first.start, last.stop⟩]⟩,
      sub.stop)
  | _, _ => none

/-- The substitutions of a template literal. -/
def substitutions (n : Node) : List Node :=
  n.namedChildren.filter fun c => c.kind == "template_substitution"

/-- The text of a template literal; none if one of its substitutions is empty. -/
def ofNode? (t : Text) (n : Node) : Option TemplateText := do
  let (text, cursor) ← (substitutions n).foldlM (addSubstitution t) (⟨[], []⟩, n.start + 1)
  return { text with combined := text.combined ++ t.slice cursor (n.stop - 1) }

/-- The phrases of a template that cut through no marker. -/
def phrases (d : Delimiter) (t : TemplateText) : List Phrase :=
  (d.phrases t.combined).filter fun p => !t.markers.any fun m => m.cutBy p

end TemplateText

end Phrasebook
