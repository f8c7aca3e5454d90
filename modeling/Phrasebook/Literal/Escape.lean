import Phrasebook.Text.Basic
import Phrasebook.Text.Digit

/-!
# Escapes in string literals

The inside of a quoted string literal is decoded with a map back to its spelling: every decoded
character knows the offset where its spelling begins. Two numeric escapes that spell the halves of
a surrogate pair give one character.

## Main definitions

* `spellingAt` — what a literal begins with, and the length of its spelling.
* `decodeLiteral` — the decoded form of the inside of a string literal.
-/

namespace Phrasebook

/-- Why an escape stands for no character. -/
inductive EscapeError where
  /-- Its number is above all code points. -/
  | outOfRange
  /-- Its number has more than thirty-one bits. -/
  | overflow
  deriving DecidableEq

/-- The wording of an escape error. -/
def EscapeError.message : EscapeError → Text
  | outOfRange => "chr() arg not in range(0x110000)"
  | overflow => "Python int too large to convert to C int"

/-- What a piece of a literal stands for. -/
inductive Spelling where
  | point (c : CodePoint)
  /-- The code point with a number, possibly half of a pair. -/
  | code (n : Nat)
  /-- Nothing, as for a line that is continued. -/
  | nothing
  deriving DecidableEq

/-- The character of an escape with one letter. -/
def simpleEscape? (c : CodePoint) : Option CodePoint :=
  if c == 'n' then some '\n'
  else if c == 'r' then some '\r'
  else if c == 't' then some '\t'
  else if c == 'b' then some '\x08'
  else if c == 'f' then some '\x0c'
  else if c == 'v' then some '\x0b'
  else if c.isOneOf "'\"\\`$" then some c
  else none

/-- Whether a code point ends a line, the carriage return apart. -/
def isLineTerminator (c : CodePoint) : Bool :=
  c == '\n' || c.toNat = 0x2028 || c.toNat = 0x2029

/-- The value of a text of hexadecimal digits, if it is one and not empty. -/
def hexValue? (digits : Text) : Option Nat :=
  if digits.isEmpty then none
  else digits.foldlM (fun n c => c.hexValue?.map (n * 16 + ·)) 0

/-- The digits between braces at the beginning of a text, after the opening brace. -/
def bracedDigits? (t : Text) : Option Text :=
  let digits := t.takeWhile fun (c : CodePoint) => c != '\x7d'
  if digits.length < t.length then some digits else none

/-- What the escape `\u` stands for, given what follows it, and its whole length. -/
def unicodeSpelling (rest : Text) : Spelling × Nat :=
  match rest with
  | .scalar '\x7b' :: inner =>
    match bracedDigits? inner with
    | none => (.point 'u', 2)
    | some digits =>
      match hexValue? digits with
      | some n => (.code n, digits.length + 4)
      | none => (.point 'u', 2)
  | _ =>
    if 4 ≤ rest.length then
      match hexValue? (rest.take 4) with
      | some n => (.code n, 6)
      | none => (.point 'u', 2)
    else (.point 'u', 2)

/-- What a backslash and the character `e` after it stand for, given what follows, and the length
of the whole escape. -/
def escapeSpelling (e : CodePoint) (rest : Text) : Spelling × Nat :=
  match simpleEscape? e with
  | some c => (.point c, 2)
  | none =>
    if e == '\r' then (.nothing, if rest.head? = some '\n' then 3 else 2)
    else if isLineTerminator e then (.nothing, 2)
    else if e == 'u' then unicodeSpelling rest
    else if e == 'x' && 2 ≤ rest.length then
      match hexValue? (rest.take 2) with
      | some n => (.point ((CodePoint.ofNat? n).getD default), 4)
      | none => (.point e, 2)
    else if e == '0' && !(rest.head?.any CodePoint.isDigit) then (.point '\x00', 2)
    else (.point e, 2)

/-- What a literal that begins with `c` begins with, and the length of its spelling. -/
def spellingAt (c : CodePoint) (rest : Text) : Spelling × Nat :=
  if c == '\\' then
    match rest with
    | [] => (.point c, 1)
    | e :: rest => escapeSpelling e rest
  else (.point c, 1)

/-- Decoded characters, each with the offset where its spelling begins. -/
abbrev Decoded := List (CodePoint × Nat)

namespace Decoded

/-- The decoded text. -/
def text (d : Decoded) : Text := d.map Prod.fst

/-- The offsets where spellings begin, and the length of the whole literal. -/
def starts (d : Decoded) (length : Nat) : List Nat := d.map Prod.snd ++ [length]

end Decoded

/-- Add the code point with a number, spelled at an offset, to what has been decoded (the last
first): a low surrogate joins with a high one before it. -/
def addCode (done : Decoded) (n offset : Nat) : Except EscapeError Decoded :=
  let fresh : Except EscapeError Decoded :=
    match CodePoint.ofNat? n with
    | some c => .ok ((c, offset) :: done)
    | none => .error (if n < 0x80000000 then .outOfRange else .overflow)
  match done with
  | (high, start) :: earlier =>
    if CodePoint.isLowSurrogateCode n && high.isHighSurrogate then
      .ok ((CodePoint.pair high n, start) :: earlier)
    else fresh
  | [] => fresh

/-- The walk behind `decodeLiteral`: `skip` characters still belong to the last escape, and `done`
holds what has been decoded, the last first. -/
def decodeFrom (offset skip : Nat) (done : Decoded) : Text → Except EscapeError Decoded
  | [] => .ok done.reverse
  | c :: rest =>
    match skip with
    | skip + 1 => decodeFrom (offset + 1) skip done rest
    | 0 =>
      match spellingAt c rest with
      | (.point d, length) => decodeFrom (offset + 1) (length - 1) ((d, offset) :: done) rest
      | (.nothing, length) => decodeFrom (offset + 1) (length - 1) done rest
      | (.code n, length) =>
        match addCode done n offset with
        | .ok done => decodeFrom (offset + 1) (length - 1) done rest
        | .error e => .error e

/-- The decoded form of the inside of a string literal. -/
def decodeLiteral (raw : Text) : Except EscapeError Decoded := decodeFrom 0 0 [] raw

end Phrasebook
