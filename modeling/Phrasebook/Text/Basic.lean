import Phrasebook.Text.CodePoint

/-!
# Texts

A text is a list of code points. Offsets and lengths count code points. The operations here are
the few that the rest of the library is written with: cutting, searching, replacing, trimming.

## Main definitions

* `Text.slice`, `Text.splice` — a part of a text, and a text in which a part is replaced.
* `Text.find?`, `Text.replaceAll` — the first occurrence of a text, and all of them replaced.
-/

namespace Phrasebook

/-- A text: a list of code points. -/
abbrev Text := List CodePoint

namespace Text

/-- The text of a string. -/
def ofString (s : String) : Text := s.toList.map .scalar

instance : Coe String Text := ⟨ofString⟩

/-- The string of a text; a surrogate, which a string cannot hold, becomes `U+FFFD`. -/
def display (t : Text) : String :=
  String.ofList (t.map fun
    | .scalar c => c
    | .surrogate _ => Char.ofNat 0xFFFD)

/-- The part of a text from one offset up to, and without, another. -/
def slice (t : Text) (start stop : Nat) : Text := (t.take stop).drop start

/-- A text with the part between two offsets replaced. -/
def splice (t : Text) (start stop : Nat) (replacement : Text) : Text :=
  t.take start ++ replacement ++ t.drop stop

/-- Whether a text begins with another. -/
def startsWith (t beginning : Text) : Bool := beginning.isPrefixOf t

/-- Whether a text ends with another. -/
def endsWith (t ending : Text) : Bool := ending.reverse.isPrefixOf t.reverse

/-- The offset of the first occurrence of `needle`. -/
def find? (needle : Text) : Text → Option Nat
  | [] => if needle.isEmpty then some 0 else none
  | c :: rest =>
    if needle.isPrefixOf (c :: rest) then some 0 else (find? needle rest).map (· + 1)

/-- The offset of the first occurrence of `needle` at or after `start`. -/
def findFrom? (needle t : Text) (start : Nat) : Option Nat :=
  if start ≤ t.length then (find? needle (t.drop start)).map (· + start) else none

/-- Whether `needle` occurs in a text. -/
def has (t needle : Text) : Bool := (find? needle t).isSome

/-- The walk behind `replaceAll`; `skip` code points still belong to the last occurrence. -/
def replaceFrom (old new : Text) (skip : Nat) : Text → Text
  | [] => []
  | c :: rest =>
    match skip with
    | skip + 1 => replaceFrom old new skip rest
    | 0 =>
      if old.isPrefixOf (c :: rest) then new ++ replaceFrom old new (old.length - 1) rest
      else c :: replaceFrom old new 0 rest

/-- Every occurrence of the non-empty text `old` replaced, from left to right. -/
def replaceAll (t old new : Text) : Text := replaceFrom old new 0 t

/-- A text without the code points of a class at its end. -/
def trimRightWhile (p : CodePoint → Bool) (t : Text) : Text := (t.reverse.dropWhile p).reverse

/-- A text without the code points of a class at either end. -/
def trimWhile (p : CodePoint → Bool) (t : Text) : Text := trimRightWhile p (t.dropWhile p)

/-- Texts joined by a separator. -/
def join (separator : Text) (parts : List Text) : Text := List.intercalate separator parts

/-- The parts of a text between the code points of a class. -/
def splitWhere (p : CodePoint → Bool) : Text → List Text
  | [] => [[]]
  | c :: rest =>
    if p c then [] :: splitWhere p rest
    else
      match splitWhere p rest with
      | [] => [[c]]
      | part :: parts => (c :: part) :: parts

/-- The lexicographic order by code points. -/
def ble : Text → Text → Bool
  | [], _ => true
  | _ :: _, [] => false
  | a :: s, b :: t => if a == b then ble s t else a.ble b

/-- The decimal digits of a number. -/
def ofNat (n : Nat) : Text := (Nat.toDigits 10 n).map .scalar

/-- An integer in decimal, with a minus sign if it is negative. -/
def ofInt : Int → Text
  | .ofNat n => ofNat n
  | .negSucc n => '-' :: ofNat (n + 1)

/-- The lower-case hexadecimal digits of a number, padded with zeros to a width. -/
def hex (width n : Nat) : Text :=
  let digits : Text := (Nat.toDigits 16 n).map .scalar
  List.replicate (width - digits.length) (.scalar '0') ++ digits

/-- Whether a text holds no surrogate, so that it can be written out. -/
def isEncodable (t : Text) : Bool := t.all fun c => !c.isSurrogate

/-- How many bytes the UTF-8 form of a text has. -/
def byteLength : Text → Nat
  | [] => 0
  | c :: rest => c.byteLength + byteLength rest

end Text

end Phrasebook
