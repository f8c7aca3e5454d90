/-!
# Code points

The letters of every text of this library. A text that has been read from a file consists of
Unicode scalar values only, but an escape inside a string literal can spell one half of a
surrogate pair, and such a half then travels through keys and calls. So a code point is either
a scalar value or a surrogate, and only writing a text out asks which of the two it is.

## Main definitions

* `CodePoint` — a scalar value or a surrogate, with its number `CodePoint.toNat`.
* `CodePoint.pair` — the scalar value that two halves of a pair spell.
-/

namespace Phrasebook

/-- A Unicode code point: a scalar value, or one of the 2048 surrogates from `U+D800` on. -/
inductive CodePoint where
  | scalar (c : Char)
  /-- The surrogate `U+D800 + offset`. -/
  | surrogate (offset : Fin 2048)
  deriving DecidableEq

namespace CodePoint

instance : Coe Char CodePoint := ⟨scalar⟩

instance : Inhabited CodePoint := ⟨scalar ' '⟩

/-- The number of a code point. -/
def toNat : CodePoint → Nat
  | scalar c => c.toNat
  | surrogate offset => 0xD800 + offset.val

/-- The code point with a given number, if there is one. -/
def ofNat? (n : Nat) : Option CodePoint :=
  if n.isValidChar then some (scalar (Char.ofNat n))
  else if h : 0xD800 ≤ n ∧ n - 0xD800 < 2048 then some (surrogate ⟨n - 0xD800, h.2⟩)
  else none

/-- Code points are ordered by their numbers. -/
def ble (a b : CodePoint) : Bool := a.toNat ≤ b.toNat

/-- Whether a code point is a surrogate. -/
def isSurrogate : CodePoint → Bool
  | scalar _ => false
  | surrogate _ => true

/-- Whether a code point is the first half of a surrogate pair. -/
def isHighSurrogate (c : CodePoint) : Bool := 0xD800 ≤ c.toNat && c.toNat ≤ 0xDBFF

/-- Whether a number is that of the second half of a surrogate pair. -/
def isLowSurrogateCode (n : Nat) : Bool := 0xDC00 ≤ n && n ≤ 0xDFFF

/-- The scalar value that a high surrogate and a low one spell together. -/
def pair (high : CodePoint) (low : Nat) : CodePoint :=
  scalar (Char.ofNat (0x10000 + (high.toNat - 0xD800) * 0x400 + (low - 0xDC00)))

/-- How many bytes UTF-8 spends on a code point (three for a surrogate, if it had a form). -/
def byteLength (c : CodePoint) : Nat :=
  if c.toNat < 0x80 then 1
  else if c.toNat < 0x800 then 2
  else if c.toNat < 0x10000 then 3
  else 4

/-- Whether the code point is one of those of a string. -/
def isOneOf (c : CodePoint) (s : String) : Bool := s.toList.any (fun d => c == scalar d)

/-- Whether the code point is a decimal digit of ASCII. -/
def isAsciiDigit (c : CodePoint) : Bool := 0x30 ≤ c.toNat && c.toNat ≤ 0x39

/-- Whether the code point is a letter of ASCII. -/
def isAsciiLetter (c : CodePoint) : Bool :=
  (0x41 ≤ c.toNat && c.toNat ≤ 0x5A) || (0x61 ≤ c.toNat && c.toNat ≤ 0x7A)

/-- Whether the code point is a capital letter of ASCII. -/
def isAsciiUpper (c : CodePoint) : Bool := 0x41 ≤ c.toNat && c.toNat ≤ 0x5A

/-- The value of a hexadecimal digit, in either case. -/
def hexValue? (c : CodePoint) : Option Nat :=
  let n := c.toNat
  if 0x30 ≤ n && n ≤ 0x39 then some (n - 0x30)
  else if 0x61 ≤ n && n ≤ 0x66 then some (n - 0x61 + 10)
  else if 0x41 ≤ n && n ≤ 0x46 then some (n - 0x41 + 10)
  else none

end CodePoint

end Phrasebook
