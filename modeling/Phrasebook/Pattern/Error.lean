import Phrasebook.Text.Lines
import Phrasebook.Text.Quoted

/-!
# What can be wrong with a pattern

## Main definitions

* `PatternFlaw` — what can be wrong, with its wording `PatternFlaw.message`.
* `PatternError` — a flaw at a place.
-/

namespace Phrasebook

/-- What can be wrong with the text of a pattern. -/
inductive PatternFlaw where
  | unterminatedGroup
  | unbalanced
  | unterminatedComment
  | nothingToRepeat
  | multipleRepeat
  | leastAboveMost
  | repetitionTooLarge
  | unterminatedSet
  | badRange (lo hi : Text)
  | badEscape (escape : Text)
  | incompleteEscape (escape : Text)
  | octalTooLarge (escape : Text)
  | missingBrace
  | missingCharacterName
  | unknownCharacterName (name : Text)
  | endsInBackslash
  | unknownExtension (letters : Text)
  | endOfPattern
  | missingGroupName
  | unterminatedName (closer : Text)
  | badGroupName (name : Text)
  | redefinedGroup (name : Text) (number earlier : Nat)
  | unknownGroupName (name : Text)
  | badGroupReference (number : Nat)
  | badGroupNumber
  | tooManyBranches
  | openGroup
  | groupBehind
  | unknownFlag
  | unterminatedFlags
  | missingFlag
  | missingColon
  | localeFlag
  | incompatibleFlags
  | kindFlagOff
  | globalFlagOn
  | globalFlagOff
  | flagOnAndOff
  | misplacedFlags
  | asciiAndUnicode
  | looksBackUnfixed
  | looksBackTooFar
  | repetitionInTemplate (kind : Text)
  | notOneGroup (pattern : Text)
  deriving DecidableEq

/-- The wording of a flaw. -/
def PatternFlaw.message : PatternFlaw → Text
  | unterminatedGroup => "missing ), unterminated subpattern"
  | unbalanced => "unbalanced parenthesis"
  | unterminatedComment => "missing ), unterminated comment"
  | nothingToRepeat => "nothing to repeat"
  | multipleRepeat => "multiple repeat"
  | leastAboveMost => "min repeat greater than max repeat"
  | repetitionTooLarge => "the repetition number is too large"
  | unterminatedSet => "unterminated character set"
  | badRange lo hi => "bad character range " ++ lo ++ "-" ++ hi
  | badEscape escape => "bad escape " ++ escape
  | incompleteEscape escape => "incomplete escape " ++ escape
  | octalTooLarge escape => "octal escape value " ++ escape ++ " outside of range 0-0o377"
  | missingBrace => "missing \x7b"
  | missingCharacterName => "missing character name"
  | unknownCharacterName name => "undefined character name " ++ name.quoted
  | endsInBackslash => "bad escape (end of pattern)"
  | unknownExtension letters => "unknown extension " ++ letters
  | endOfPattern => "unexpected end of pattern"
  | missingGroupName => "missing group name"
  | unterminatedName closer => "missing " ++ closer ++ ", unterminated name"
  | badGroupName name => "bad character in group name " ++ name.quoted
  | redefinedGroup name number earlier =>
    "redefinition of group name " ++ name.quoted ++ " as group " ++ Text.ofNat number
      ++ "; was group " ++ Text.ofNat earlier
  | unknownGroupName name => "unknown group name " ++ name.quoted
  | badGroupReference number => "invalid group reference " ++ Text.ofNat number
  | badGroupNumber => "bad group number"
  | tooManyBranches => "conditional backref with more than two branches"
  | openGroup => "cannot refer to an open group"
  | groupBehind => "cannot refer to group defined in the same lookbehind subpattern"
  | unknownFlag => "unknown flag"
  | unterminatedFlags => "missing -, : or )"
  | missingFlag => "missing flag"
  | missingColon => "missing :"
  | localeFlag => "bad inline flags: cannot use 'L' flag with a str pattern"
  | incompatibleFlags => "bad inline flags: flags 'a', 'u' and 'L' are incompatible"
  | kindFlagOff => "bad inline flags: cannot turn off flags 'a', 'u' and 'L'"
  | globalFlagOn => "bad inline flags: cannot turn on global flag"
  | globalFlagOff => "bad inline flags: cannot turn off global flag"
  | flagOnAndOff => "bad inline flags: flag turned on and off"
  | misplacedFlags => "global flags not at the start of the expression"
  | asciiAndUnicode => "ASCII and UNICODE flags are incompatible"
  | looksBackUnfixed => "look-behind requires fixed-width pattern"
  | looksBackTooFar => "looks too much behind"
  | repetitionInTemplate kind => "internal: unsupported template operator " ++ kind
  | notOneGroup pattern => "pattern needs exactly one capturing group: " ++ pattern

/-- Whether a flaw is beyond what callers expect of a bad pattern, so that it stops the program. -/
def PatternFlaw.isFatal (flaw : PatternFlaw) : Bool :=
  flaw == repetitionTooLarge || flaw == asciiAndUnicode

/-- The place of a flaw in the text of a pattern. -/
structure PatternPlace where
  offset : Nat
  /-- Its line and column, for a pattern of several lines. -/
  position : Option Position
  deriving DecidableEq

/-- The place of an offset in a pattern. -/
def PatternPlace.of (pattern : Text) (offset : Nat) : PatternPlace :=
  ⟨offset, if pattern.contains '\n' then some (pattern.position offset) else none⟩

/-- A flaw of a pattern, with its place if it has one. -/
structure PatternError where
  flaw : PatternFlaw
  place : Option PatternPlace
  deriving DecidableEq

/-- The wording of a place; lines and columns count from one here. -/
def PatternPlace.message (p : PatternPlace) : Text :=
  " at position " ++ Text.ofNat p.offset ++
    match p.position with
    | none => []
    | some position =>
      " (line " ++ Text.ofInt position.line ++ ", column " ++ Text.ofInt (position.column + 1) ++ ")"

/-- The wording of an error. -/
def PatternError.message (e : PatternError) : Text :=
  e.flaw.message ++
    match e.place with
    | none => []
    | some place => place.message

end Phrasebook
