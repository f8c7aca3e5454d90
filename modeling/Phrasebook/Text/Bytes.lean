import Phrasebook.Text.Lines

/-!
# Byte offsets

Syntax trees count bytes of UTF-8, everything else counts code points. A byte inside a character
belongs to that character, and the end of the bytes to the end of the text. In a text of ASCII the
two counts are the same, also beyond its end.

## Main definitions

* `Text.byteOffset` — the byte at which a character begins.
* `Text.charOfByte?`, `Text.charOffset` — the character that a byte belongs to.
-/

namespace Phrasebook.Text

/-- Whether every code point of a text takes one byte. -/
def isAscii (t : Text) : Bool := t.all fun c => c.byteLength == 1

/-- The offset of the character that a byte belongs to, for a text that begins at an offset. -/
def charOfByteFrom (offset : Nat) : Text → Nat → Option Nat
  | [], 0 => some offset
  | [], _ + 1 => none
  | c :: rest, byte =>
    if byte < c.byteLength then some offset
    else charOfByteFrom (offset + 1) rest (byte - c.byteLength)

/-- The offset of the character that a byte belongs to. A negative offset counts from behind the
end of the bytes, and beyond the bytes there is none; in a text of ASCII any offset stays as it
is. -/
def charOfByte? (t : Text) (byte : Int) : Option Int :=
  if t.isAscii then some byte
  else if 0 ≤ byte then (charOfByteFrom 0 t byte.toNat).map fun n => (n : Int)
  else if 0 ≤ byte + t.byteLength + 1 then
    (charOfByteFrom 0 t (byte + t.byteLength + 1).toNat).map fun n => (n : Int)
  else none

/-- The offset of the character that a byte belongs to; beyond the bytes, the end of the text. -/
def charOffset (t : Text) (byte : Nat) : Nat :=
  if t.isAscii then byte else (charOfByteFrom 0 t byte).getD t.length

/-- An offset, where a negative one counts from the end. -/
def fromEnd (t : Text) (offset : Int) : Nat :=
  if 0 ≤ offset then offset.toNat else (offset + t.length).toNat

/-- The byte at which a character begins; in a text of ASCII any offset stays as it is. -/
def byteOffset (t : Text) (offset : Int) : Int :=
  if t.isAscii then offset else byteLength (t.take (t.fromEnd offset))

end Phrasebook.Text
