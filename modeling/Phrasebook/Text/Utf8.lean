import Phrasebook.Text.Quoted

/-!
# UTF-8

Texts as bytes. A text with a surrogate has no such form, and a sequence of bytes need not be
one; both failures name the place.

## Main definitions

* `Text.encode` — the bytes of a text, unless it holds a surrogate.
* `Utf8.decode` — the text of a sequence of bytes, or the first flaw.
-/

namespace Phrasebook

/-- Why a text has no UTF-8 form: a run of surrogates, from `first` to `last`. -/
structure EncodeError where
  first : Nat
  last : Nat
  point : CodePoint
  deriving DecidableEq

/-- The wording of an encoding failure. -/
def EncodeError.message (e : EncodeError) : Text :=
  if e.first = e.last then
    "'utf-8' codec can't encode character '" ++ e.point.spelledOut ++ "' in position "
      ++ Text.ofNat e.first ++ ": surrogates not allowed"
  else
    "'utf-8' codec can't encode characters in position " ++ Text.ofNat e.first ++ "-"
      ++ Text.ofNat e.last ++ ": surrogates not allowed"

/-- What is wrong with a sequence of bytes. -/
inductive DecodeFlaw where
  | startByte
  | continuationByte
  | endOfData
  deriving DecidableEq

/-- Why bytes are not UTF-8: the flaw, and the bytes from `first` to `last`. -/
structure DecodeError where
  flaw : DecodeFlaw
  first : Nat
  last : Nat
  byte : UInt8
  deriving DecidableEq

/-- The wording of a flaw. -/
def DecodeFlaw.message : DecodeFlaw → Text
  | startByte => "invalid start byte"
  | continuationByte => "invalid continuation byte"
  | endOfData => "unexpected end of data"

/-- The wording of a decoding failure. -/
def DecodeError.message (e : DecodeError) : Text :=
  if e.first = e.last then
    "'utf-8' codec can't decode byte 0x" ++ Text.hex 2 e.byte.toNat ++ " in position "
      ++ Text.ofNat e.first ++ ": " ++ e.flaw.message
  else
    "'utf-8' codec can't decode bytes in position " ++ Text.ofNat e.first ++ "-"
      ++ Text.ofNat e.last ++ ": " ++ e.flaw.message

namespace Text

/-- The first run of surrogates in a text that begins at offset `position`. -/
def firstSurrogates? (position : Nat) : Text → Option EncodeError
  | [] => none
  | c :: rest =>
    if c.isSurrogate then
      some ⟨position, position + (rest.takeWhile CodePoint.isSurrogate).length, c⟩
    else firstSurrogates? (position + 1) rest

/-- The bytes of one scalar value. -/
def encodePoint (c : CodePoint) : List UInt8 :=
  let n := c.toNat
  if n < 0x80 then [n.toUInt8]
  else if n < 0x800 then [(0xC0 + n / 0x40).toUInt8, (0x80 + n % 0x40).toUInt8]
  else if n < 0x10000 then
    [(0xE0 + n / 0x1000).toUInt8, (0x80 + n / 0x40 % 0x40).toUInt8, (0x80 + n % 0x40).toUInt8]
  else
    [(0xF0 + n / 0x40000).toUInt8, (0x80 + n / 0x1000 % 0x40).toUInt8,
      (0x80 + n / 0x40 % 0x40).toUInt8, (0x80 + n % 0x40).toUInt8]

/-- The bytes of a text, unless it holds a surrogate. -/
def encode (t : Text) : Except EncodeError (List UInt8) :=
  match firstSurrogates? 0 t with
  | some e => .error e
  | none => .ok (t.flatMap encodePoint)

end Text

namespace Utf8

/-- Whether a byte goes on with a character. -/
def isContinuation (b : UInt8) : Bool := 0x80 ≤ b && b ≤ 0xBF

/-- Whether `b` can be the second byte of a character that begins with `a`: the shortest form is
asked for, and neither surrogates nor numbers above `U+10FFFF` have one. -/
def isSecond (a b : UInt8) : Bool :=
  isContinuation b
    && !(a == 0xE0 && b < 0xA0) && !(a == 0xED && 0xA0 ≤ b)
    && !(a == 0xF0 && b < 0x90) && !(a == 0xF4 && 0x90 ≤ b)

/-- The code point of a number, which is a scalar value here. -/
def point (n : Nat) : CodePoint := .scalar (Char.ofNat n)

/-- The first character of a sequence of bytes and how many bytes it takes, or the flaw and how
many bytes it concerns. -/
def next (a : UInt8) (rest : List UInt8) : Except (DecodeFlaw × Nat) (CodePoint × Nat) :=
  if a < 0x80 then .ok (point a.toNat, 1)
  else if a < 0xC2 || 0xF5 ≤ a then .error (.startByte, 1)
  else
    match rest with
    | [] => .error (.endOfData, 1)
    | b :: rest =>
      if !isSecond a b then .error (.continuationByte, 1)
      else if a < 0xE0 then .ok (point ((a.toNat - 0xC0) * 0x40 + (b.toNat - 0x80)), 2)
      else
        match rest with
        | [] => .error (.endOfData, 2)
        | c :: rest =>
          if !isContinuation c then .error (.continuationByte, 2)
          else if a < 0xF0 then
            .ok (point ((a.toNat - 0xE0) * 0x1000 + (b.toNat - 0x80) * 0x40 + (c.toNat - 0x80)), 3)
          else
            match rest with
            | [] => .error (.endOfData, 3)
            | d :: _ =>
              if !isContinuation d then .error (.continuationByte, 3)
              else
                .ok (point ((a.toNat - 0xF0) * 0x40000 + (b.toNat - 0x80) * 0x1000
                  + (c.toNat - 0x80) * 0x40 + (d.toNat - 0x80)), 4)

/-- The walk behind `decode`: `skip` bytes still belong to the last character. -/
def decodeFrom (position skip : Nat) : List UInt8 → Except DecodeError Text
  | [] => .ok []
  | a :: rest =>
    match skip with
    | skip + 1 => decodeFrom (position + 1) skip rest
    | 0 =>
      match next a rest with
      | .error (flaw, length) => .error ⟨flaw, position, position + length - 1, a⟩
      | .ok (c, length) => do
        let t ← decodeFrom (position + 1) (length - 1) rest
        return c :: t

/-- The text of a sequence of bytes, or the first flaw. -/
def decode (bytes : List UInt8) : Except DecodeError Text := decodeFrom 0 0 bytes

end Utf8

end Phrasebook
