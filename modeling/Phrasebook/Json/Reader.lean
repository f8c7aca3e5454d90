import Phrasebook.Assoc
import Phrasebook.Json.Basic
import Phrasebook.Text.Lines

/-!
# Reading JSON

A reader that takes the rest of a text and gives a value and what is left. A flaw is reported with
the number of code points that are left at its place, which the outermost call turns into an offset,
a line and a column. Beyond the letter of the format it takes the numbers `NaN`, `Infinity` and
`-Infinity`, and halves of surrogate pairs; a name that is repeated in an object keeps its first
place and its last value.

## Main definitions

* `Json.parse` — the value of a whole text, or the first flaw in it and its place.
-/

namespace Phrasebook.Json

/-- What can be wrong with a text. -/
inductive Flaw where
  | byteOrderMark
  | expectingValue
  | expectingName
  | expectingColon
  | expectingComma
  | extraData
  | unterminatedString
  | controlCharacter
  | badEscape
  | badUnicodeEscape
  deriving DecidableEq

/-- The wording of a flaw. -/
def Flaw.message : Flaw → Text
  | byteOrderMark => "Unexpected UTF-8 BOM (decode using utf-8-sig)"
  | expectingValue => "Expecting value"
  | expectingName => "Expecting property name enclosed in double quotes"
  | expectingColon => "Expecting ':' delimiter"
  | expectingComma => "Expecting ',' delimiter"
  | extraData => "Extra data"
  | unterminatedString => "Unterminated string starting at"
  | controlCharacter => "Invalid control character at"
  | badEscape => "Invalid \\escape"
  | badUnicodeEscape => "Invalid \\uXXXX escape"

/-- A flaw with its place. -/
structure Error where
  flaw : Flaw
  offset : Nat
  position : Position
  deriving DecidableEq

/-- The wording of an error; columns count from one here. -/
def Error.message (e : Error) : Text :=
  e.flaw.message ++ ": line " ++ Text.ofInt e.position.line ++ " column "
    ++ Text.ofInt (e.position.column + 1) ++ " (char " ++ Text.ofNat e.offset ++ ")"

/-- A flaw, and how many code points are left at its place. -/
abbrev Stop := Flaw × Nat

/-- The white space of the format. -/
def isSpace (c : CodePoint) : Bool := c == ' ' || c == '\t' || c == '\n' || c == '\r'

/-- What is left after white space. -/
def skipSpace (t : Text) : Text := t.dropWhile isSpace

/-- The character of an escape with one letter. -/
def escapedLetter? (c : CodePoint) : Option CodePoint :=
  if c == '"' || c == '\\' || c == '/' then some c
  else if c == 'b' then some '\x08'
  else if c == 'f' then some '\x0c'
  else if c == 'n' then some '\n'
  else if c == 'r' then some '\r'
  else if c == 't' then some '\t'
  else none

/-- The number that four hexadecimal digits spell. -/
def hexQuad? (a b c d : CodePoint) : Option Nat := do
  let a ← a.hexValue?
  let b ← b.hexValue?
  let c ← c.hexValue?
  let d ← d.hexValue?
  return ((a * 16 + b) * 16 + c) * 16 + d

/-- A numeric escape before the text that follows it: a high surrogate joins with a low one that
is spelled right after it. -/
def joinEscape (code : Nat) (followedByEscape : Bool) (t : Text) : Text :=
  let point := (CodePoint.ofNat? code).getD default
  match t with
  | next :: rest =>
    if point.isHighSurrogate && followedByEscape && CodePoint.isLowSurrogateCode next.toNat then
      CodePoint.pair point next.toNat :: rest
    else point :: t
  | [] => [point]

/-- The text of a string after its opening quote, where `start` code points are left, and what
follows the closing quote. -/
def readString (start : Nat) : Text → Except Stop (Text × Text)
  | [] => .error (.unterminatedString, start)
  | .scalar '"' :: rest => .ok ([], rest)
  | .scalar '\\' :: .scalar 'u' :: a :: b :: c :: d :: next :: rest =>
    match hexQuad? a b c d with
    | none => .error (.badUnicodeEscape, rest.length + 6)
    | some code => do
      let (t, left) ← readString start (next :: rest)
      return (joinEscape code (Text.startsWith (next :: rest) "\\u") t, left)
  | .scalar '\\' :: .scalar 'u' :: rest => .error (.badUnicodeEscape, rest.length + 1)
  | .scalar '\\' :: c :: rest =>
    match escapedLetter? c with
    | none => .error (.badEscape, rest.length + 2)
    | some c => do
      let (t, left) ← readString start rest
      return (c :: t, left)
  | c :: rest =>
    if c == '\\' then .error (.unterminatedString, start)
    else if c.toNat < 0x20 then .error (.controlCharacter, rest.length + 1)
    else do
      let (t, left) ← readString start rest
      return (c :: t, left)

/-- The value of a run of decimal digits. -/
def digitsValue (digits : Text) : Nat := digits.foldl (fun n c => n * 10 + (c.toNat - 0x30)) 0

/-- The integer part of a number without its sign: a zero, or digits that begin with none. -/
def integerPart (t : Text) : Text :=
  match t with
  | .scalar '0' :: _ => ['0']
  | _ => t.takeWhile CodePoint.isAsciiDigit

/-- The fraction that a text begins with: a point and at least one digit. -/
def fractionPart (t : Text) : Text :=
  match t with
  | .scalar '.' :: rest =>
    let digits := rest.takeWhile CodePoint.isAsciiDigit
    if digits.isEmpty then [] else '.' :: digits
  | _ => []

/-- The exponent that a text begins with: its mark, a sign or none, and at least one digit. -/
def exponentPart (t : Text) : Text :=
  match t with
  | mark :: rest =>
    if mark == 'e' || mark == 'E' then
      let sign := rest.take 1 |>.filter fun (c : CodePoint) => c == '-' || c == '+'
      let digits := (rest.drop sign.length).takeWhile CodePoint.isAsciiDigit
      if digits.isEmpty then [] else mark :: sign ++ digits
    else []
  | [] => []

/-- The number that a text begins with. -/
def readNumber (t : Text) : Except Stop (Json × Text) :=
  let sign := t.take 1 |>.filter fun (c : CodePoint) => c == '-'
  let whole := integerPart (t.drop sign.length)
  if whole.isEmpty then .error (.expectingValue, t.length)
  else
    let rest := t.drop (sign.length + whole.length)
    let fraction := fractionPart rest
    let exponent := exponentPart (rest.drop fraction.length)
    if fraction.isEmpty && exponent.isEmpty then
      let value : Int := digitsValue whole
      .ok (.integer (if sign.isEmpty then value else -value), rest)
    else
      .ok (.real (sign ++ whole ++ fraction ++ exponent),
        rest.drop (fraction.length + exponent.length))

/-- The words of the format and their values. -/
def words : List (Text × Json) :=
  [("null", .null), ("true", .bool true), ("false", .bool false), ("NaN", .real "NaN"),
    ("Infinity", .real "Infinity"), ("-Infinity", .real "-Infinity")]

/-- The word or number that a text begins with. -/
def readPlain (t : Text) : Except Stop (Json × Text) :=
  match words.find? fun word => t.startsWith word.1 with
  | some (word, value) => .ok (value, t.drop word.length)
  | none => readNumber t

mutual

/-- The value that a text begins with. Every call inside it comes after at least one code point
has been taken, so the length of the text and one is fuel enough. -/
def readValue : Nat → Text → Except Stop (Json × Text)
  | 0, t => .error (.expectingValue, t.length)
  | fuel + 1, t =>
    match t with
    | .scalar '"' :: rest => do
      let (s, left) ← readString t.length rest
      return (.text s, left)
    | .scalar '\x7b' :: rest =>
      match skipSpace rest with
      | .scalar '\x7d' :: left => .ok (.object [], left)
      | rest => do
        let (members, left) ← readMembers fuel [] rest
        return (.object members, left)
    | .scalar '[' :: rest =>
      match skipSpace rest with
      | .scalar ']' :: left => .ok (.array [], left)
      | rest => do
        let (items, left) ← readItems fuel rest
        return (.array items, left)
    | _ => readPlain t

/-- The members of an object: those already read, and from the name of the next one on. -/
def readMembers : Nat → List (Text × Json) → Text → Except Stop (List (Text × Json) × Text)
  | 0, _, t => .error (.expectingName, t.length)
  | fuel + 1, members, t =>
    match t with
    | .scalar '"' :: rest => do
      let (name, left) ← readString t.length rest
      match skipSpace left with
      | .scalar ':' :: left => do
        let (value, left) ← readValue fuel (skipSpace left)
        let members := put members name value
        match skipSpace left with
        | .scalar '\x7d' :: left => return (members, left)
        | .scalar ',' :: left => readMembers fuel members (skipSpace left)
        | left => .error (.expectingComma, left.length)
      | left => .error (.expectingColon, left.length)
    | _ => .error (.expectingName, t.length)

/-- The items of a list from one on. -/
def readItems : Nat → Text → Except Stop (List Json × Text)
  | 0, t => .error (.expectingValue, t.length)
  | fuel + 1, t => do
    let (item, left) ← readValue fuel t
    match skipSpace left with
    | .scalar ']' :: left => return ([item], left)
    | .scalar ',' :: left => do
      let (items, left) ← readItems fuel (skipSpace left)
      return (item :: items, left)
    | left => .error (.expectingComma, left.length)

end

/-- The value of a whole text, white space around it apart. -/
def parseValue (t : Text) : Except Stop Json :=
  if t.startsWith ['\ufeff'] then .error (.byteOrderMark, t.length)
  else do
    let (value, left) ← readValue (t.length + 1) (skipSpace t)
    match skipSpace left with
    | [] => return value
    | left => .error (.extraData, left.length)

/-- The value of a whole text, or the first flaw in it and its place. -/
def parse (t : Text) : Except Error Json :=
  match parseValue t with
  | .ok value => .ok value
  | .error (flaw, left) =>
    .error ⟨flaw, t.length - left, t.position ((t.length - left : Nat) : Int)⟩

end Phrasebook.Json
