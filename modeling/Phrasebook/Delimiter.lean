import Phrasebook.Pattern.Matcher
import Phrasebook.Pattern.Reader

/-!
# Delimiters

A delimiter is a pattern that marks phrases in a text. It captures exactly one part, the payload
of the phrase; a phrase without a payload is none.

## Main definitions

* `Delimiter`, `Delimiter.ofText` — patterns that capture one part, and how they are spelled.
* `Phrase` — a marked phrase in a text.
* `Delimiter.phrases`, `Delimiter.phrase?` — the phrases of a text, and the first one.
-/

namespace Phrasebook

/-- A pattern that captures exactly one part. -/
structure Delimiter where
  /-- How the pattern is spelled. -/
  source : Text
  pattern : Pattern
  /-- It captures one part. -/
  oneGroup : pattern.groups = 1

/-- A marked phrase in a text. -/
structure Phrase where
  /-- The phrase with its marks. -/
  full : Text
  /-- The captured part. -/
  payload : Text
  start : Nat
  stop : Nat
  deriving DecidableEq

/-- The phrase of a hit, unless its payload is missing or empty. -/
def Hit.phrase? (t : Text) (hit : Hit) : Option Phrase :=
  match hit.captured.lookup 1 with
  | none => none
  | some (start, stop) =>
    let payload := t.slice start stop
    if payload.isEmpty then none else some ⟨t.slice hit.start hit.stop, payload, hit.start, hit.stop⟩

namespace Delimiter

/-- The spelling of the delimiter that is used unless another is given. -/
def defaultSource : Text := "___(.+)___"

/-- The delimiter that a text spells, where characters can have names. -/
def ofText (t : Text) (names : CharacterNames := fun _ => none) : Except PatternError Delimiter :=
  match Pattern.parse t names with
  | .error e => .error e
  | .ok p => if h : p.groups = 1 then .ok ⟨t, p, h⟩ else .error ⟨.notOneGroup t, none⟩

/-- All phrases of a text. -/
def phrases (d : Delimiter) (t : Text) : List Phrase :=
  (d.pattern.allHits t).filterMap (Hit.phrase? t)

/-- The phrase that the first hit in a text marks. -/
def phrase? (d : Delimiter) (t : Text) : Option Phrase :=
  (d.pattern.firstHit t).bind (Hit.phrase? t)

/-- How a delimiter is shown. -/
def describe (d : Delimiter) : Text := "DelimiterPattern(" ++ d.source.quoted ++ ")"

end Delimiter

end Phrasebook
