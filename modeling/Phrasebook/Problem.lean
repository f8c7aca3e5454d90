import Phrasebook.Json.Reader
import Phrasebook.Literal.Escape
import Phrasebook.Pattern.Error
import Phrasebook.Text.Utf8

/-!
# Problems

What can keep a file from being converted. A problem has a cause, which fixes its kind, its wording
and its details, and a place. Beside problems there are failures of another sort: a function of the
caller refuses, a text cannot be encoded, an index is out of range.

## Main definitions

* `ProblemKind`, with `code` and `severity`.
* `Cause`, with `kind`, `message` and `details`.
* `Problem`, with `location`, `text` and `toJson`.
* `Failure`, with `message` — a problem, or a failure of another sort.
-/

namespace Phrasebook

/-- The kinds of problems. -/
inductive ProblemKind where
  | general
  | configuration
  | unparsed
  | unsupported
  | transform
  | misplaced
  | component
  deriving DecidableEq

namespace ProblemKind

/-- The code by which a kind is known. -/
def code : ProblemKind → Text
  | general => "GENERAL001"
  | configuration => "CONFIG001"
  | unparsed => "PARSING001"
  | unsupported => "PARSING002"
  | transform => "TRANSFORM001"
  | misplaced => "TRANSFORM003"
  | component => "VUE001"

/-- How severe a kind is. -/
def severity : ProblemKind → Text
  | configuration => "fatal"
  | unsupported => "warning"
  | _ => "error"

end ProblemKind

/-- What caused a problem. -/
inductive Cause where
  | unparsed (dialect : Text)
  | unknownDialect (name : Text)
  | unsupportedFile (suffix : Text)
  | unsupportedLanguage (language : Text)
  | unanchored
  | contextNotFound (fullMatch : Text)
  | replacedNotFound
  | spanOutOfRange (start stop : Int)
  | spanMismatch (expected : Text)
  | overlap (start stop : Int)
  | insertionOutOfRange (position : Int)
  | ownerNotFound
  | unclosedBlock (name : Text) (offset : Nat)
  | notIdentifier (name : Text)
  | settingsNotObject
  | sectionNotObject (name : Text)
  | unknownSetting (name inSection : Text)
  | wrongSettingType (name inSection expected : Text)
  | unexpected (reason : Text)
  | stated (kind : ProblemKind) (message : Text) (details : List (Text × Json))

namespace Cause

/-- The kind of a cause. -/
def kind : Cause → ProblemKind
  | unparsed _ => .unparsed
  | unknownDialect _ | unsupportedFile _ | unsupportedLanguage _ => .unsupported
  | unanchored | contextNotFound _ | replacedNotFound | spanOutOfRange _ _ | spanMismatch _
  | overlap _ _ | insertionOutOfRange _ | ownerNotFound => .misplaced
  | unclosedBlock _ _ => .component
  | notIdentifier _ | settingsNotObject | sectionNotObject _ | unknownSetting _ _
  | wrongSettingType _ _ _ => .configuration
  | unexpected _ => .transform
  | stated kind _ _ => kind

/-- The wording of a cause. -/
def message : Cause → Text
  | unparsed _ => "Source could not be parsed"
  | unknownDialect name => "Unknown dialect: " ++ name
  | unsupportedFile suffix =>
    "Unsupported file type: " ++ if suffix.isEmpty then ("(none)" : Text) else suffix
  | unsupportedLanguage language => "Unsupported script lang: " ++ language
  | unanchored => "Change has neither offsets nor match context"
  | contextNotFound _ => "Match context not found in text"
  | replacedNotFound => "Original text not found in match context"
  | spanOutOfRange start stop =>
    "Offsets [" ++ Text.ofInt start ++ ", " ++ Text.ofInt stop ++ ") out of range"
  | spanMismatch _ => "Offsets do not reference the original text"
  | overlap _ _ => "Overlapping changes"
  | insertionOutOfRange position => "Insertion offset " ++ Text.ofInt position ++ " out of range"
  | ownerNotFound => "Function for accessor acquisition not found in patched code"
  | unclosedBlock name _ => "Unclosed <" ++ name ++ "> block"
  | notIdentifier name => "plain_import.namespace is not an identifier: " ++ name.quoted
  | settingsNotObject => "Config must be a JSON object."
  | sectionNotObject name => "`" ++ name ++ "` must be an object."
  | unknownSetting name inSection => "Unknown option `" ++ name ++ "` in " ++ inSection ++ "."
  | wrongSettingType name inSection expected =>
    "Option `" ++ name ++ "` in " ++ inSection ++ " must be " ++ expected ++ "."
  | unexpected reason => "Unexpected failure: " ++ reason
  | stated _ message _ => message

/-- What a cause tells beside its wording. -/
def details : Cause → List (Text × Json)
  | unparsed dialect => [("dialect", .text dialect)]
  | contextNotFound fullMatch => [("full_match", .text fullMatch)]
  | spanMismatch expected => [("expected", .text expected)]
  | overlap start stop => [("previous", .array [.integer start, .integer stop])]
  | unclosedBlock _ offset => [("offset", .integer offset)]
  | stated _ _ details => details
  | _ => []

end Cause

/-- A problem: its cause and its place, as far as that is known. -/
structure Problem where
  cause : Cause
  file : Option Text := none
  /-- The line, counted from one. -/
  line : Option Int := none
  /-- The column, counted from zero. -/
  column : Option Int := none

namespace Problem

/-- The problem of a cause at a position of a file. -/
def placed (cause : Cause) (file : Option Text) (line column : Int) : Problem :=
  ⟨cause, file, some line, some column⟩

/-- The file, unless its name is empty. -/
def namedFile? (p : Problem) : Option Text := p.file.filter fun name => !name.isEmpty

/-- The place of a problem as it is shown; columns count from one here. -/
def location (p : Problem) : Text :=
  match p.namedFile?, p.line with
  | none, _ => []
  | some file, none => file
  | some file, some line =>
    file ++ ":" ++ Text.ofInt line ++ ":" ++ Text.ofInt (p.column.getD 0 + 1)

/-- A problem as it is shown. -/
def text (p : Problem) : Text :=
  let place : Text := if p.location.isEmpty then [] else p.location ++ ": "
  "[" ++ p.cause.kind.code ++ "] " ++ place ++ p.cause.message

/-- A problem as it stands in a report; what is not known is left out. -/
def toJson (p : Problem) : List (Text × Json) :=
  let file : List (Text × Json) :=
    match p.namedFile? with
    | none => []
    | some file => [("file", .text file)]
  let column : Json :=
    match p.column with
    | none => .null
    | some column => .integer column
  let place : List (Text × Json) :=
    match p.line with
    | none => []
    | some line => [("line", .integer line), ("column", column)]
  let details : List (Text × Json) :=
    if p.cause.details.isEmpty then [] else [("details", .object p.cause.details)]
  let wording : List (Text × Json) :=
    [("code", .text p.cause.kind.code), ("severity", .text p.cause.kind.severity),
      ("message", .text p.cause.message)]
  wording ++ file ++ place ++ details

/-- A problem with the file filled in if it had none. -/
def inFile (p : Problem) (file : Text) : Problem :=
  match p.file with
  | none => { p with file := some file }
  | some _ => p

end Problem

/-- A problem, or a failure of another sort. -/
inductive Failure where
  | problem (p : Problem)
  /-- A function of the caller refused, for a reason. -/
  | refused (reason : Text)
  /-- An escape stands for no character. -/
  | badEscape (e : EscapeError)
  | unencodable (e : EncodeError)
  | undecodable (e : DecodeError)
  | badPattern (e : PatternError)
  | badJson (e : Json.Error)
  | badIndex
  | unknownScope (name : Text)

namespace Failure

/-- The wording of a failure. -/
def message : Failure → Text
  | problem p => p.text
  | refused reason => reason
  | badEscape e => e.message
  | unencodable e => e.message
  | undecodable e => e.message
  | badPattern e => e.message
  | badJson e => e.message
  | badIndex => "list index out of range"
  | unknownScope name => name.quoted ++ " is not a valid AccessorScope"

/-- The problem that a failure amounts to in a file. -/
def toProblem (file : Text) : Failure → Problem
  | problem p => p.inFile file
  | failure => { cause := .unexpected failure.message, file := some file }

end Failure

end Phrasebook
