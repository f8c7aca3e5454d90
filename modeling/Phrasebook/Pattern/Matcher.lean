import Phrasebook.Pattern.Basic

/-!
# Matching

Matching by backtracking. A pattern is run at a head, which knows the text before it and after it
and what has been captured, and is given what is to be matched after it; of the ways in which the
pattern can match, the first after which the rest matches counts.

A repetition goes on with another round while the bound allows it, unless its last round beyond the
least number took nothing: so a round may be empty, but no two in a row are.

## Main definitions

* `Head` — a place in a text, with what has been captured on the way there.
* `Pattern.run` — the first way to match a pattern and what comes after it.
* `Pattern.hitAt`, `Pattern.match?`, `Pattern.firstHit`, `Pattern.allHits` — where a pattern matches
  in a text.
-/

namespace Phrasebook

/-- A place in a text, and what has been captured. -/
structure Head where
  /-- The text before the place, the nearest character first. -/
  before : Text
  after : Text
  offset : Nat
  /-- The spans of the captured parts by their numbers, the latest first. -/
  captured : List (Nat × Nat × Nat) := []

namespace Head

/-- The head after the next character. -/
def advance? (h : Head) : Option (CodePoint × Head) :=
  match h.after with
  | [] => none
  | c :: rest =>
    some (c, ⟨c :: h.before, rest, h.offset + 1, h.captured⟩)

/-- The head so many characters further on, as far as the text goes. -/
def advance (h : Head) : Nat → Head
  | 0 => h
  | n + 1 =>
    match h.advance? with
    | none => h
    | some (_, h) => h.advance n

/-- The head so many characters back, if there are so many. -/
def back? (h : Head) : Nat → Option Head
  | 0 => some h
  | n + 1 =>
    match h.before with
    | [] => none
    | c :: rest => Head.back? ⟨rest, c :: h.after, h.offset - 1, h.captured⟩ n

/-- Whether a word character stands before the head. -/
def wordBefore (ascii : Bool) (h : Head) : Bool := h.before.head?.any (CharKind.word.holds ascii)

/-- Whether a word character stands after the head. -/
def wordAfter (ascii : Bool) (h : Head) : Bool := h.after.head?.any (CharKind.word.holds ascii)

/-- Whether the head is at a place of a kind. -/
def isAt (h : Head) : Place → Bool
  | .textStart => h.before.isEmpty
  | .textEnd => h.after.isEmpty
  | .lastLineEnd => h.after.isEmpty || h.after == [.scalar '\n']
  | .lineStart => h.before.isEmpty || h.before.head? == some '\n'
  | .lineEnd => h.after.isEmpty || h.after.head? == some '\n'
  | .wordEdge ascii => h.wordBefore ascii != h.wordAfter ascii
  | .noWordEdge ascii =>
    !(h.before.isEmpty && h.after.isEmpty) && h.wordBefore ascii == h.wordAfter ascii

/-- The text that is captured under a number. It may lie behind the head, if it was captured by
looking ahead. -/
def capturedText? (h : Head) (number : Nat) : Option Text :=
  (h.captured.lookup number).map fun (start, stop) =>
    Text.slice (h.before.reverse ++ h.after) start stop

end Head

/-- What comes after a pattern: it takes the head that the pattern leaves. -/
abbrev Continuation (α : Type) := Head → Option α

/-- A way to match: from what comes after it and a head to the first success. -/
abbrev Matching (α : Type) := Continuation α → Head → Option α

/-- Whether another round is allowed after `count` rounds. -/
def roundAllowed (most : Option Nat) (count : Nat) : Bool :=
  match most with
  | none => true
  | some most => count < most

/-- As many rounds as possible first. `last` is where the last round beyond the least number
began. -/
def runGreedy {α : Type} (round : Matching α) (least : Nat) (most : Option Nat)
    (next : Continuation α) : Nat → Nat → Option Nat → Head → Option α
  | 0, _, _, h => next h
  | fuel + 1, count, last, h =>
    if count < least then round (runGreedy round least most next fuel (count + 1) last) h
    else
      let more :=
        if roundAllowed most count && last != some h.offset then
          round (runGreedy round least most next fuel (count + 1) (some h.offset)) h
        else none
      match more with
      | some a => some a
      | none => next h

/-- As few rounds as possible first. -/
def runLazy {α : Type} (round : Matching α) (least : Nat) (most : Option Nat)
    (next : Continuation α) : Nat → Nat → Option Nat → Head → Option α
  | 0, _, _, h => next h
  | fuel + 1, count, last, h =>
    if count < least then round (runLazy round least most next fuel (count + 1) last) h
    else
      match next h with
      | some a => some a
      | none =>
        if roundAllowed most count && last != some h.offset then
          round (runLazy round least most next fuel (count + 1) (some h.offset)) h
        else none

/-- As many rounds as possible, each in its first way, and then where they end. -/
def runPossessive (round : Head → Option Head) (least : Nat) (most : Option Nat) :
    Nat → Nat → Option Nat → Head → Option Head
  | 0, _, _, h => some h
  | fuel + 1, count, last, h =>
    if count < least then
      match round h with
      | some h => runPossessive round least most fuel (count + 1) last h
      | none => none
    else if roundAllowed most count && last != some h.offset then
      match round h with
      | some h' => runPossessive round least most fuel (count + 1) (some h.offset) h'
      | none => some h
    else some h

/-- How many rounds a repetition can take: the least number, one for every character that is left,
and an empty one. -/
def roundFuel (least : Nat) (h : Head) : Nat := least + h.after.length + 2

/-- Whether two texts are the same, as far as case counts. -/
def sameText (rule : CaseRule) (s t : Text) : Bool := s.map rule.lower == t.map rule.lower

namespace Pattern

/-- Run a pattern at a head: the first success of what comes after it. -/
def run {α : Type} : Pattern → Matching α
  | empty, next, h => next h
  | never, _, _ => none
  | one s, next, h =>
    match h.advance? with
    | some (c, h) => if s.holds c then next h else none
    | none => none
  | seq p q, next, h => run p (run q next) h
  | alt p q, next, h =>
    match run p next h with
    | some a => some a
    | none => run q next h
  | group number p, next, h =>
    run p (fun h' => next { h' with captured := (number, h.offset, h'.offset) :: h'.captured }) h
  | again number rule _, next, h =>
    match h.capturedText? number with
    | none => none
    | some t =>
      if sameText rule (h.after.take t.length) t then next (h.advance t.length) else none
  | ifCaptured number p q, next, h =>
    if (h.captured.lookup number).isSome then run p next h else run q next h
  | times .greedy least most p, next, h =>
    runGreedy (run p) least most next (roundFuel least h) 0 none h
  | times .lazy least most p, next, h =>
    runLazy (run p) least most next (roundFuel least h) 0 none h
  | times .possessive least most p, next, h =>
    match runPossessive (run p some) least most (roundFuel least h) 0 none h with
    | some h => next h
    | none => none
  | atomic p, next, h =>
    match run p some h with
    | some h => next h
    | none => none
  | place a, next, h => if h.isAt a then next h else none
  | ahead wanted p, next, h =>
    match run p some h with
    | some h' => if wanted then next { h with captured := h'.captured } else none
    | none => if wanted then none else next h
  | behind wanted p, next, h =>
    match (h.back? p.width.1).bind (run p some) with
    | some h' => if wanted then next { h with captured := h'.captured } else none
    | none => if wanted then none else next h

end Pattern

/-- Where a pattern and its captured parts matched. -/
structure Hit where
  start : Nat
  stop : Nat
  /-- The spans of the captured parts that took part in the match by their numbers, the latest
  first. -/
  captured : List (Nat × Nat × Nat)
  deriving DecidableEq

/-- The part of the text that is captured under a number. -/
def Hit.part? (t : Text) (hit : Hit) (number : Nat) : Option Text :=
  (hit.captured.lookup number).map fun (start, stop) => t.slice start stop

namespace Pattern

/-- The hit that begins at a head; if `nonEmpty`, one that takes at least one character. -/
def hitAt (p : Pattern) (nonEmpty : Bool) (h : Head) : Option Hit :=
  p.run (fun h' =>
    if nonEmpty && h'.offset == h.offset then none
    else some ⟨h.offset, h'.offset, h'.captured⟩) h

/-- The hit at the beginning of a text. -/
def match? (p : Pattern) (t : Text) : Option Hit := p.hitAt false ⟨[], t, 0, []⟩

/-- The first hit in the text `after`, which begins at an offset. -/
def firstHitFrom (p : Pattern) (before : Text) (offset : Nat) (after : Text) : Option Hit :=
  match p.hitAt false ⟨before, after, offset, []⟩ with
  | some hit => some hit
  | none =>
    match after with
    | [] => none
    | c :: rest => firstHitFrom p (c :: before) (offset + 1) rest

/-- The first hit in a text. -/
def firstHit (p : Pattern) (t : Text) : Option Hit := p.firstHitFrom [] 0 t

/-- The hits that begin at a head: one, or an empty one and then one that is not empty. -/
def hitsAt (p : Pattern) (h : Head) : List Hit :=
  match p.hitAt false h with
  | none => []
  | some hit =>
    if hit.stop = hit.start then hit :: (p.hitAt true h).toList else [hit]

/-- The walk behind `allHits`; `skip` characters still belong to the last hit. -/
def allHitsFrom (p : Pattern) (before : Text) (offset skip : Nat) : Text → List Hit
  | [] => if skip = 0 then p.hitsAt ⟨before, [], offset, []⟩ else []
  | c :: rest =>
    match skip with
    | skip + 1 => allHitsFrom p (c :: before) (offset + 1) skip rest
    | 0 =>
      let hits := p.hitsAt ⟨before, c :: rest, offset, []⟩
      let taken := (hits.getLast?.map fun hit => hit.stop - offset).getD 0
      hits ++ allHitsFrom p (c :: before) (offset + 1) (taken - 1) rest

/-- All hits in a text, from left to right and without overlap. Where a hit ends another one may
begin; after an empty hit it must not be empty again at the same place. -/
def allHits (p : Pattern) (t : Text) : List Hit := p.allHitsFrom [] 0 0 t

end Pattern

end Phrasebook
