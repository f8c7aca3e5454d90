import Phrasebook.Text.Blank

/-!
# Line comments at the end of a replacement

A replacement that ends in a line comment would hide what follows it on its line. So the comment is
split off and put where nothing follows: behind closing brackets, or behind a comma.

## Main definitions

* `splitLineComment` — code and the line comment that ends it.
* `commentPlacement` — where a line comment can go.
-/

namespace Phrasebook

/-- Whether a code point is a space or a tab. -/
def isSpaceOrTab (c : CodePoint) : Bool := c == ' ' || c == '\t'

/-- Whether a code point is a carriage return or a line feed. -/
def isLineEnd (c : CodePoint) : Bool := c == '\r' || c == '\n'

/-- The length of the block comment that a text begins with; none if it is not closed. -/
def blockCommentLength? (t : Text) : Option Nat := (Text.findFrom? "*/" t 2).map (· + 2)

/-- The walk behind `splitLineComment`: what came before (the last first), the quote of the string
around, and how many characters still belong to an escape or a block comment. -/
def splitCommentFrom (before : Text) (quote : Option CodePoint) (skip : Nat) :
    Text → Option (Text × Text)
  | [] => none
  | c :: rest =>
    match skip, quote with
    | skip + 1, _ => splitCommentFrom (c :: before) quote skip rest
    | 0, some q =>
      if c == '\\' then splitCommentFrom (c :: before) quote 1 rest
      else splitCommentFrom (c :: before) (if c == q then none else quote) 0 rest
    | 0, none =>
      if c.isOneOf "'\"`" then splitCommentFrom (c :: before) (some c) 0 rest
      else if Text.startsWith (c :: rest) "/*" then
        match blockCommentLength? (c :: rest) with
        | none => none
        | some length => splitCommentFrom (c :: before) none (length - 1) rest
      else if Text.startsWith (c :: rest) "//" then
        let comment := Text.trimRight (c :: rest)
        if comment.any isLineEnd then none
        else some (Text.trimRightWhile isSpaceOrTab before.reverse, comment)
      else splitCommentFrom (c :: before) none 0 rest

/-- Code and the line comment that ends it. Slashes inside of strings, templates and block
comments begin none. -/
def splitLineComment (t : Text) : Option (Text × Text) := splitCommentFrom [] none 0 t

/-- Whether a code point is a closing bracket or a semicolon. -/
def isCloser (c : CodePoint) : Bool := c.isOneOf ")]\x7d;"

/-- Where a line comment can go in a text that begins at an offset, and whether a line end has to
follow it; none if code comes first. -/
def placementFrom (offset : Nat) : Text → Option (Nat × Bool)
  | [] => some (offset, false)
  | c :: rest =>
    if isSpaceOrTab c || isCloser c then placementFrom (offset + 1) rest
    else if isLineEnd c then some (offset, false)
    else if c == ',' then
      some (offset + 1, (rest.dropWhile isSpaceOrTab).head?.any fun d => !isLineEnd d)
    else none

/-- Where a line comment can go from an offset on. -/
def commentPlacement (t : Text) (offset : Nat) : Option (Nat × Bool) :=
  if t.length ≤ offset then some (t.length, false) else placementFrom offset (t.drop offset)

end Phrasebook
