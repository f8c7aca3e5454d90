import Phrasebook.Text.Blank
import Phrasebook.Text.Case
import Phrasebook.Text.Word

/-!
# Patterns

Patterns of the usual kind: sets of characters, sequence, alternatives, repetition, places, and
looking around. Parts that are captured have numbers, and can be asked for and matched again.

## Main definitions

* `CharSet` — a set of characters, which may ignore case.
* `Place`, `Greed` — where a pattern can match nothing, and in which order repetitions are tried.
* `Pattern` — patterns, with `Pattern.groups` and `Pattern.width`.
-/

namespace Phrasebook

/-- The kinds of characters that have an escape of their own. -/
inductive CharKind where
  | digit
  | blank
  | word
  deriving DecidableEq

/-- Whether a character is of a kind; if `ascii`, other characters than those of ASCII are not. -/
def CharKind.holds (ascii : Bool) (k : CharKind) (c : CodePoint) : Bool :=
  match ascii, k with
  | false, digit => c.isDecimal
  | false, blank => c.isBlank
  | false, word => c.isWord
  | true, digit => c.isAsciiDigit
  | true, blank => c == ' ' || (9 ≤ c.toNat && c.toNat ≤ 0xD)
  | true, word => c.isAsciiLetter || c.isAsciiDigit || c == '_'

/-- How case counts where characters are compared. -/
inductive CaseRule where
  | counts
  | ignoredInAscii
  | ignored
  deriving DecidableEq

/-- The numbers of all characters that are the same as `c` when case is ignored. -/
def CodePoint.caseVariants (c : CodePoint) : List Nat :=
  (lowerForms c.toNat).flatMap capitals

namespace CaseRule

/-- What a character is compared as. -/
def lower (rule : CaseRule) (c : CodePoint) : CodePoint :=
  match rule with
  | counts => c
  | ignoredInAscii => if c.toNat < 0x80 then c.lower else c
  | ignored => c.lower

/-- The numbers of all characters that are the same as `c`. -/
def variants (rule : CaseRule) (c : CodePoint) : List Nat :=
  match rule with
  | counts => [c.toNat]
  | ignoredInAscii => if c.toNat < 0x80 then c.caseVariants.filter (· < 0x80) else [c.toNat]
  | ignored => c.caseVariants

end CaseRule

/-- One item of a set of characters. -/
inductive SetItem where
  /-- The characters with numbers from `lo` to `hi`. -/
  | range (lo hi : Nat)
  /-- The characters of a kind, perhaps of ASCII only, or all others. -/
  | kind (k : CharKind) (ascii wanted : Bool)
  deriving DecidableEq

/-- Whether a character matches an item. -/
def SetItem.holds (rule : CaseRule) (c : CodePoint) : SetItem → Bool
  | range lo hi => (rule.variants c).any fun n => lo ≤ n && n ≤ hi
  | kind k ascii wanted => k.holds ascii (rule.lower c) == wanted

/-- A set of characters: those that match an item, or, if `negated`, those that match none. -/
structure CharSet where
  /-- Whether the set holds what its items leave out. -/
  negated : Bool
  rule : CaseRule
  items : List SetItem
  deriving DecidableEq

namespace CharSet

/-- Whether a set holds a character. -/
def holds (s : CharSet) (c : CodePoint) : Bool := s.items.any (SetItem.holds s.rule c) != s.negated

/-- The set of one character. -/
def single (rule : CaseRule) (n : Nat) : CharSet := ⟨false, rule, [.range n n]⟩

/-- Every character. -/
def every : CharSet := ⟨true, .counts, []⟩

/-- Every character but the line feed. -/
def everyButLineFeed : CharSet := ⟨true, .counts, [.range 0xA 0xA]⟩

end CharSet

/-- A place between characters. -/
inductive Place where
  | textStart
  | textEnd
  /-- The end of the text, or before a line feed that ends it. -/
  | lastLineEnd
  | lineStart
  | lineEnd
  /-- Between a word character, perhaps of ASCII, and none. -/
  | wordEdge (ascii : Bool)
  /-- Anywhere else, in a text that is not empty. -/
  | noWordEdge (ascii : Bool)
  deriving DecidableEq

/-- In which order the numbers of repetitions are tried. -/
inductive Greed where
  /-- As many as possible first. -/
  | greedy
  /-- As few as possible first. -/
  | lazy
  /-- As many as possible and nothing else. -/
  | possessive
  deriving DecidableEq

/-- A pattern. -/
inductive Pattern where
  | empty
  | never
  | one (s : CharSet)
  | seq (p q : Pattern)
  | alt (p q : Pattern)
  /-- A pattern whose text is captured under a number. -/
  | group (number : Nat) (p : Pattern)
  /-- The text that is captured under a number again; `width` is that of its pattern. -/
  | again (number : Nat) (rule : CaseRule) (width : Nat × Option Nat)
  /-- One pattern if something is captured under a number, or else another. -/
  | ifCaptured (number : Nat) (p q : Pattern)
  /-- A pattern at least and at most so many times. -/
  | times (greed : Greed) (least : Nat) (most : Option Nat) (p : Pattern)
  /-- A pattern, of which only the first way to match counts. -/
  | atomic (p : Pattern)
  | place (a : Place)
  /-- What follows does, or does not, match a pattern. -/
  | ahead (wanted : Bool) (p : Pattern)
  /-- What comes before does, or does not, match a pattern. -/
  | behind (wanted : Bool) (p : Pattern)
  deriving DecidableEq

namespace Pattern

/-- How many parts of a pattern are captured. -/
def groups : Pattern → Nat
  | group _ p => p.groups + 1
  | seq p q | alt p q | ifCaptured _ p q => p.groups + q.groups
  | times _ _ _ p | atomic p | ahead _ p | behind _ p => p.groups
  | empty | never | one _ | again _ _ _ | place _ => 0

/-- The sum of two greatest lengths, where none is no bound. -/
def addBounds : Option Nat → Option Nat → Option Nat
  | some a, some b => some (a + b)
  | _, _ => none

/-- The greater of two greatest lengths, where none is no bound. -/
def maxBounds : Option Nat → Option Nat → Option Nat
  | some a, some b => some (max a b)
  | _, _ => none

/-- The greatest length of a repetition, where none is no bound. -/
def mulBounds : Option Nat → Option Nat → Option Nat
  | some a, some b => some (a * b)
  | some 0, none | none, some 0 => some 0
  | _, _ => none

/-- The least and the greatest length of a text that a pattern matches. -/
def width : Pattern → Nat × Option Nat
  | one _ => (1, some 1)
  | seq p q => (p.width.1 + q.width.1, addBounds p.width.2 q.width.2)
  | alt p q | ifCaptured _ p q => (min p.width.1 q.width.1, maxBounds p.width.2 q.width.2)
  | group _ p | atomic p => p.width
  | again _ _ width => width
  | times _ least most p => (p.width.1 * least, mulBounds p.width.2 most)
  | empty | never | place _ | ahead _ _ | behind _ _ => (0, some 0)

/-- The sequence of a list of patterns. -/
def ofList : List Pattern → Pattern
  | [] => empty
  | [p] => p
  | p :: ps => seq p (ofList ps)

end Pattern

end Phrasebook
