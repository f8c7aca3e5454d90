import Phrasebook.Pattern.Basic
import Phrasebook.Pattern.Error

/-!
# Reading patterns

The text of a pattern is cut into tokens, a character or a backslash with the character that it
escapes, and the tokens are read from left to right. The reader looks one token ahead, so a
backslash at the very end is reported as soon as the token before it is taken.

## Main definitions

* `tokensOf` — the tokens of a pattern.
* `Reading` — a step of reading, which can fail.
* `readAlternatives`, `readSequence`, `readGroup` — the parts of a pattern.
* `Pattern.parse` — the pattern of a text, or the first flaw in it.
-/

namespace Phrasebook

/-- A token: a character, or a backslash and the character that it escapes. -/
structure Token where
  /-- The one or two code points. -/
  text : Text
  /-- The offset of the first. -/
  offset : Nat
  deriving DecidableEq

/-- Whether a token is a given character. -/
def Token.is (t : Token) (c : Char) : Bool := t.text == [.scalar c]

/-- The tokens of a text that begins at an offset; a backslash at the end is none. -/
def tokensFrom (offset : Nat) : Text → List Token
  | [] => []
  | .scalar '\\' :: c :: rest => ⟨['\\', c], offset⟩ :: tokensFrom (offset + 2) rest
  | c :: rest => if c == '\\' then [] else ⟨[c], offset⟩ :: tokensFrom (offset + 1) rest

/-- The tokens of a pattern. -/
def tokensOf (pattern : Text) : List Token := tokensFrom 0 pattern

/-- What a flag says about a pattern. -/
inductive PatternFlag where
  | ignoreCase
  /-- Places at line ends count. -/
  | multiLine
  /-- The dot takes a line feed. -/
  | dotAll
  /-- Blanks and comments are left out. -/
  | verbose
  /-- The kinds of characters are those of ASCII. -/
  | ascii
  /-- The kinds of characters are those of all scripts. -/
  | unicode
  /-- The kinds of characters are those of a place, which patterns of bytes alone can say. -/
  | locale
  /-- Nothing is repeated. -/
  | template
  deriving DecidableEq

/-- The flag that a token stands for. -/
def PatternFlag.ofToken? (t : Token) : Option PatternFlag :=
  [('i', ignoreCase), ('m', multiLine), ('s', dotAll), ('x', verbose), ('a', ascii), ('u', unicode),
    ('L', locale), ('t', template)].findSome? fun (c, flag) => if t.is c then some flag else none

/-- Whether a flag is about the kinds of characters. -/
def PatternFlag.isOfKinds (flag : PatternFlag) : Bool :=
  flag == ascii || flag == unicode || flag == locale

/-- The flags that are in force in a group, where some are turned on and others off. -/
def flagsWithin (flags on off : List PatternFlag) : List PatternFlag :=
  let kept := if on.any PatternFlag.isOfKinds then flags.filter fun f => !f.isOfKinds else flags
  (kept ++ on).filter fun f => !off.contains f

/-- How case counts under flags. -/
def caseRule (flags : List PatternFlag) : CaseRule :=
  if !flags.contains .ignoreCase then .counts
  else if flags.contains .ascii then .ignoredInAscii
  else .ignored

/-- The numbers of the characters that have names. -/
abbrev CharacterNames := Text → Option Nat

/-- What the reader keeps while it reads. -/
structure PatternReader where
  tokens : List Token
  length : Nat
  /-- Whether the pattern ends in a backslash that escapes nothing. -/
  dangling : Bool
  characterNames : CharacterNames
  /-- The flags in force. -/
  flags : List PatternFlag := []
  /-- How many groups have been opened. -/
  opened : Nat := 0
  /-- The numbers of the groups that have been closed, with the widths of their patterns. -/
  closed : List (Nat × Nat × Option Nat) := []
  /-- The names of groups. -/
  names : List (Text × Nat) := []
  /-- While looking back, how many groups had been opened before. -/
  openedBefore : Option Nat := none
  /-- The numbers that conditions ask for, and where. -/
  conditions : List (Nat × Nat) := []

/-- A step of reading: it may fail with a flaw and its offset. -/
abbrev Reading (α : Type) := StateT PatternReader (Except (PatternFlaw × Option Nat)) α

namespace Reading

/-- Fail at an offset. -/
def fail {α : Type} (flaw : PatternFlaw) (offset : Nat) : Reading α := throw (flaw, some offset)

/-- The next token. -/
def peek : Reading (Option Token) := do return (← get).tokens.head?

/-- The offset of the next token. -/
def tell : Reading Nat := do
  let r ← get
  return (r.tokens.head?.map Token.offset).getD
    (if r.dangling then r.length - 1 else r.length)

/-- Fail if the pattern has come to a backslash that escapes nothing. -/
def checkEnd : Reading Unit := do
  let r ← get
  if r.dangling && r.tokens.isEmpty then fail .endsInBackslash (r.length - 1)

/-- Take the next token. -/
def take : Reading (Option Token) := do
  match (← get).tokens with
  | [] => return none
  | t :: rest =>
    modify ({ · with tokens := rest })
    checkEnd
    return some t

/-- Take the next token; there must be one. -/
def takeOr (missing : PatternFlaw) : Reading Token := do
  match ← take with
  | some t => return t
  | none => fail missing (← tell)

/-- Take the next token if it is a given character. -/
def accept (c : Char) : Reading Bool := do
  match (← get).tokens with
  | [] => return false
  | t :: _ => if t.is c then do let _ ← take; return true else return false

/-- Take tokens of a class, at most so many, and give their text. -/
def takeWhileUpTo (p : CodePoint → Bool) : Nat → Reading Text
  | 0 => return []
  | n + 1 => do
    match ← peek with
    | some ⟨[c], _⟩ =>
      if p c then do
        let _ ← take
        return c :: (← takeWhileUpTo p n)
      else return []
    | _ => return []

/-- The number of tokens that are left. -/
def remaining : Reading Nat := do return (← get).tokens.length

/-- Take the tokens of a name up to a closing character, which is taken too, and give their text. -/
def takeUntil (missing : PatternFlaw) (closer : Char) : Nat → Text → Reading Text
  | 0, name => return name
  | fuel + 1, name => do
    match ← take with
    | none =>
      if name.isEmpty then fail missing (← tell)
      else fail (.unterminatedName [.scalar closer]) ((← tell) - name.length)
    | some t =>
      if t.is closer then
        if name.isEmpty then fail missing ((← tell) - 1) else return name
      else takeUntil missing closer fuel (name ++ t.text)

/-- Take the name of something up to its closing character, and give it with its offset. -/
def takeName (missing : PatternFlaw) (closer : Char) : Reading (Text × Nat) := do
  let name ← takeUntil missing closer ((← remaining) + 1) []
  return (name, (← tell) - (name.length + 1))

end Reading

open Reading

/-- The name of a group, up to its closing character, and its offset. -/
def readGroupName (closer : Char) : Reading (Text × Nat) := do
  let (name, here) ← takeName .missingGroupName closer
  if !name.isName then fail (.badGroupName name) here
  return (name, here)

/-- The value of digits in a base. -/
def numeral (base : Nat) (digits : Text) : Nat :=
  digits.foldl (fun n c => n * base + (c.hexValue?.getD 0)) 0

/-- Whether a code point is a hexadecimal digit. -/
def isHexDigit (c : CodePoint) : Bool := c.hexValue?.isSome

/-- Whether a code point is an octal digit. -/
def isOctalDigit (c : CodePoint) : Bool := 0x30 ≤ c.toNat && c.toNat ≤ 0x37

/-- A numeric escape with a fixed number of hexadecimal digits. -/
def readHexEscape (escape : Text) (width : Nat) : Reading Nat := do
  let digits ← takeWhileUpTo isHexDigit width
  let here := (← tell) - (escape ++ digits).length
  if digits.length != width then fail (.incompleteEscape (escape ++ digits)) here
  let n := numeral 16 digits
  if n > 0x10FFFF then fail (.badEscape (escape ++ digits)) here
  return n

/-- The number of a named character. -/
def readNamedCharacter : Reading Nat := do
  if !(← accept '\x7b') then fail .missingBrace (← tell)
  let (name, here) ← takeName .missingCharacterName '\x7d'
  match (← get).characterNames name with
  | some n => return n
  | none => fail (.unknownCharacterName name) (here - 3)

/-- The characters that a letter after a backslash stands for, in a set and outside. -/
def letterEscape? (c : CodePoint) : Option Nat :=
  if c == 'a' then some 7
  else if c == 'f' then some 12
  else if c == 'n' then some 10
  else if c == 'r' then some 13
  else if c == 't' then some 9
  else if c == 'v' then some 11
  else if c == '\\' then some 0x5C
  else none

/-- The kind of characters that a letter after a backslash stands for. -/
def kindEscape? (ascii : Bool) (c : CodePoint) : Option SetItem :=
  if c == 'd' then some (.kind .digit ascii true)
  else if c == 'D' then some (.kind .digit ascii false)
  else if c == 's' then some (.kind .blank ascii true)
  else if c == 'S' then some (.kind .blank ascii false)
  else if c == 'w' then some (.kind .word ascii true)
  else if c == 'W' then some (.kind .word ascii false)
  else none

/-- The place that a letter after a backslash stands for. -/
def placeEscape? (ascii : Bool) (c : CodePoint) : Option Place :=
  if c == 'A' then some .textStart
  else if c == 'Z' then some .textEnd
  else if c == 'b' then some (.wordEdge ascii)
  else if c == 'B' then some (.noWordEdge ascii)
  else none

/-- The character of an escape that is spelled with digits or by its name, if `c` begins one. -/
def readCodeEscape (c : CodePoint) (escape : Text) : Reading (Option Nat) := do
  if c == 'x' then return some (← readHexEscape escape 2)
  else if c == 'u' then return some (← readHexEscape escape 4)
  else if c == 'U' then return some (← readHexEscape escape 8)
  else if c == 'N' then return some (← readNamedCharacter)
  else return none

/-- The value of an octal escape with these digits. -/
def readOctal (digits : Text) : Reading Nat := do
  let n := numeral 8 digits
  if n > 0xFF then
    fail (.octalTooLarge ('\\' :: digits)) ((← tell) - (digits.length + 1))
  return n

/-- The item of a set that an escape stands for. -/
def readSetEscape (escape : Text) : Reading SetItem := do
  let c := (escape.drop 1).headD default
  if let some n := letterEscape? c then return .range n n
  if c == 'b' then return .range 8 8
  if let some item := kindEscape? ((← get).flags.contains .ascii) c then return item
  if let some n ← readCodeEscape c escape then return .range n n
  if isOctalDigit c then do
    let n ← readOctal (c :: (← takeWhileUpTo isOctalDigit 2))
    return .range n n
  if c.isAsciiDigit || c.isAsciiLetter then
    fail (.badEscape escape) ((← tell) - escape.length)
  return .range c.toNat c.toNat

/-- The item that a token of a set stands for. -/
def readSetToken (t : Token) : Reading SetItem :=
  match t.text with
  | [c] => return .range c.toNat c.toNat
  | _ => readSetEscape t.text

/-- The items of a set that begins at an offset, up to its closing bracket. -/
def readSetItems (start : Nat) : Nat → List SetItem → Reading (List SetItem)
  | 0, items => return items
  | fuel + 1, items => do
    match ← take with
    | none => fail .unterminatedSet start
    | some this =>
      if this.is ']' && !items.isEmpty then return items
      let first ← readSetToken this
      if ← accept '-' then
        match ← take with
        | none => fail .unterminatedSet start
        | some that =>
          if that.is ']' then return items ++ [first, .range 0x2D 0x2D]
          let second ← readSetToken that
          match first, second with
          | .range lo _, .range hi _ =>
            if hi < lo then
              fail (.badRange this.text that.text)
                ((← tell) - (this.text.length + 1 + that.text.length))
            readSetItems start fuel (items ++ [.range lo hi])
          | _, _ =>
            fail (.badRange this.text that.text)
              ((← tell) - (this.text.length + 1 + that.text.length))
      else readSetItems start fuel (items ++ [first])

/-- What an item of a sequence is, as far as a repetition after it asks. -/
inductive ItemKind where
  /-- It can be repeated. -/
  | atom
  /-- It is a place, which cannot be repeated. -/
  | anchor
  /-- It is a repetition already. -/
  | repeated
  deriving DecidableEq

/-- An item of a sequence. -/
structure PatternItem where
  kind : ItemKind
  pattern : Pattern

/-- The item of one character. -/
def literalItem (n : Nat) : Reading PatternItem := do
  return ⟨.atom, .one (.single (caseRule (← get).flags) n)⟩

/-- While looking back, a group that is referred to must have been closed before. -/
def checkBehind (number : Nat) : Reading Unit := do
  let r ← get
  if let some before := r.openedBefore then
    if (r.closed.lookup number).isNone then fail .openGroup (← tell)
    if before < number then fail .groupBehind (← tell)

/-- A reference to a group that begins at an offset. The group must have been closed. -/
def readGroupAgain (number here : Nat) : Reading PatternItem := do
  let r ← get
  match r.closed.lookup number with
  | none => fail .openGroup here
  | some width =>
    checkBehind number
    return ⟨.atom, .again number (caseRule r.flags) width⟩

/-- A reference to a group by its number, which was written as `escape`. -/
def readReference (number : Nat) (escape : Text) : Reading PatternItem := do
  let here := (← tell) - escape.length
  if (← get).opened < number || number = 0 then fail (.badGroupReference number) (here + 1)
  readGroupAgain number here

/-- The item that an escape stands for. -/
def readEscape (escape : Text) : Reading PatternItem := do
  let c := (escape.drop 1).headD default
  let flags := (← get).flags
  if let some place := placeEscape? (flags.contains .ascii) c then return ⟨.anchor, .place place⟩
  if let some item := kindEscape? (flags.contains .ascii) c then
    return ⟨.atom, .one ⟨false, caseRule flags, [item]⟩⟩
  if let some n := letterEscape? c then return ← literalItem n
  if let some n ← readCodeEscape c escape then return ← literalItem n
  if c == '0' then
    let digits ← takeWhileUpTo isOctalDigit 2
    return ← literalItem (numeral 8 digits)
  if c.isAsciiDigit then
    let second ← takeWhileUpTo CodePoint.isAsciiDigit 1
    let third ←
      if isOctalDigit c && !second.isEmpty && second.all isOctalDigit then
        takeWhileUpTo isOctalDigit 1
      else pure []
    let digits := c :: second ++ third
    if !third.isEmpty then return ← literalItem (← readOctal digits)
    return ← readReference (numeral 10 digits) ('\\' :: digits)
  if c.isAsciiLetter then fail (.badEscape escape) ((← tell) - escape.length)
  literalItem c.toNat

/-- The bound on numbers of repetitions. -/
def repetitionLimit : Nat := 4294967295

/-- The bounds between braces, after the opening one at `here - 1`; none if the brace stands for
itself. -/
def readBounds (here : Nat) : Reading (Option (Nat × Option Nat)) := do
  let start ← get
  if (start.tokens.head?.map fun t => t.is '\x7d').getD false then return none
  let lo ← takeWhileUpTo CodePoint.isAsciiDigit (← remaining)
  let hi ← if ← accept ',' then takeWhileUpTo CodePoint.isAsciiDigit (← remaining) else pure lo
  if !(← accept '\x7d') then
    set start
    return none
  let least := numeral 10 lo
  if least ≥ repetitionLimit then throw (.repetitionTooLarge, none)
  if hi.isEmpty then return some (least, none)
  let most := numeral 10 hi
  if most ≥ repetitionLimit then throw (.repetitionTooLarge, none)
  if most < least then fail .leastAboveMost here
  return some (least, some most)

/-- What follows the operator of a repetition: it is lazy, possessive or greedy. -/
def readGreed : Reading Greed := do
  if ← accept '?' then return .lazy
  if ← accept '+' then return .possessive
  return .greedy

/-- Apply a repetition, whose operator stands at an offset, to the last of the items (the last
first). -/
def repeatLast (least : Nat) (most : Option Nat) (operator : Nat) (items : List PatternItem) :
    Reading (List PatternItem) := do
  match items with
  | [] => fail .nothingToRepeat operator
  | ⟨.anchor, _⟩ :: _ => fail .nothingToRepeat operator
  | ⟨.repeated, _⟩ :: _ => fail .multipleRepeat operator
  | ⟨.atom, p⟩ :: rest =>
    return ⟨.repeated, .times (← readGreed) least most p⟩ :: rest

/-- The flag of a token; there must be one. -/
def readFlag (missing : PatternFlaw) (t : Token) : Reading PatternFlag :=
  match PatternFlag.ofToken? t with
  | some flag => return flag
  | none => fail (if t.text.all CodePoint.isLetter then .unknownFlag else missing) t.offset

/-- Flags that are turned on, up to the token behind them. -/
def readFlagsOn : Nat → List PatternFlag → PatternFlag → Reading (List PatternFlag × Token)
  | 0, on, _ => return (on, ⟨[], 0⟩)
  | fuel + 1, on, flag => do
    if flag == .locale then fail .localeFlag (← tell)
    if flag.isOfKinds && on.any fun f => f.isOfKinds && f != flag then
      fail .incompatibleFlags (← tell)
    let t ← takeOr .unterminatedFlags
    if t.is ')' || t.is '-' || t.is ':' then return (on ++ [flag], t)
    readFlagsOn fuel (on ++ [flag]) (← readFlag .unterminatedFlags t)

/-- Flags that are turned off, with the colon behind them. -/
def readFlagsOff : Nat → List PatternFlag → PatternFlag → Reading (List PatternFlag)
  | 0, off, _ => return off
  | fuel + 1, off, flag => do
    if flag.isOfKinds then fail .kindFlagOff (← tell)
    let t ← takeOr .missingColon
    if t.is ':' then return off ++ [flag]
    readFlagsOff fuel (off ++ [flag]) (← readFlag .missingColon t)

/-- Flags from their first token on: those that are turned on and, if they hold for a group only,
those that are turned off. -/
def readFlags (first : Token) : Reading (List PatternFlag × Option (List PatternFlag)) := do
  let fuel := (← remaining) + 1
  let (on, t) ←
    if first.is '-' then pure ([], first)
    else readFlagsOn fuel [] (← readFlag .unterminatedFlags first)
  if t.is ')' then return (on, none)
  if on.contains .template then fail .globalFlagOn ((← tell) - 1)
  let off ←
    if t.is '-' then do readFlagsOff fuel [] (← readFlag .missingFlag (← takeOr .missingFlag))
    else pure []
  if off.contains .template then fail .globalFlagOff ((← tell) - 1)
  if on.any off.contains then fail .flagOnAndOff ((← tell) - 1)
  return (on, some off)

/-- The number that decimal digits of any script spell, perhaps with a sign before them, blanks
around them, and underscores between them. -/
def Text.toNat? (t : Text) : Option Nat :=
  let digits (t : Text) : Option Nat :=
    let parts := t.splitWhere (· == '_')
    if parts.contains [] then none
    else parts.flatten.foldlM (fun n c => c.decimalValue?.map (n * 10 + ·)) 0
  match t.trimWhile fun c => c.isBlank && !(0x1C ≤ c.toNat && c.toNat ≤ 0x1F) with
  | .scalar '+' :: rest => digits rest
  | .scalar '-' :: rest => (digits rest).filter (· = 0)
  | rest => digits rest

/-- The bound on numbers of groups. -/
def groupLimit : Nat := 1073741823

/-- The number of the group that a condition asks for, by its name or its number. -/
def readCondition : Reading Nat := do
  let (name, here) ← takeName .missingGroupName ')'
  let number ←
    if name.isName then
      match (← get).names.lookup name with
      | none => fail (.unknownGroupName name) here
      | some number => pure number
    else
      match name.toNat? with
      | none => fail (.badGroupName name) here
      | some number =>
        if number = 0 then fail .badGroupNumber here
        if number ≥ groupLimit then fail (.badGroupReference number) here
        modify fun r => { r with conditions := r.conditions ++ [(number, here)] }
        pure number
  checkBehind number
  return number

/-- Take the tokens of a comment, up to its closing parenthesis. -/
def skipComment (start : Nat) : Nat → Reading Unit
  | 0 => return
  | fuel + 1 => do
    match ← take with
    | none => fail .unterminatedComment start
    | some t => if t.is ')' then return else skipComment start fuel

/-- Take the tokens of a line, up to its end. -/
def skipLine : Nat → Reading Unit
  | 0 => return
  | fuel + 1 => do
    match ← take with
    | none => return
    | some t => if t.is '\n' then return else skipLine fuel

/-- Whether a token is left out of a verbose pattern. -/
def Token.isBlank (t : Token) : Bool :=
  match t.text with
  | [c] => CharKind.blank.holds true c
  | _ => false

/-- Open a group, with its name if it has one, and give its number. -/
def openGroup (name : Option Text) : Reading Nat := do
  let r ← get
  let number := r.opened + 1
  match name with
  | none => set { r with opened := number }
  | some name =>
    match r.names.lookup name with
    | some earlier =>
      fail (.redefinedGroup name number earlier) ((← tell) - (name.length + 1))
    | none => set { r with opened := number, names := (name, number) :: r.names }
  return number

mutual

/-- Alternatives, up to a closing parenthesis or the end. -/
def readAlternatives : Nat → Bool → Reading Pattern
  | 0, _ => return .empty
  | fuel + 1, outermost => do
    let items ← readSequence fuel outermost []
    let first := Pattern.ofList (items.reverse.map PatternItem.pattern)
    if ← accept '|' then
      return .alt first (← readAlternatives fuel false)
    else return first

/-- The items of a sequence, the last first. Flags for the whole pattern are taken as its first
item if `outermost`. -/
def readSequence : Nat → Bool → List PatternItem → Reading (List PatternItem)
  | 0, _, items => return items
  | fuel + 1, outermost, items => do
    match ← peek with
    | none => return items
    | some t =>
      if t.is '|' || t.is ')' then return items
      let _ ← take
      let verbose := (← get).flags.contains .verbose
      if verbose && t.isBlank then readSequence fuel outermost items
      else if verbose && t.is '#' then
        skipLine ((← remaining) + 1)
        readSequence fuel outermost items
      else
        let items ← readItem fuel outermost items t
        readSequence fuel outermost items

/-- One token of a sequence, with what belongs to it, added to the items before it. -/
def readItem : Nat → Bool → List PatternItem → Token → Reading (List PatternItem)
  | 0, _, items, _ => return items
  | fuel + 1, outermost, items, t => do
    match t.text with
    | [c] =>
      let flags := (← get).flags
      if c == '[' then
        let negated ← accept '^'
        let set ← readSetItems t.offset ((← remaining) + 1) []
        return ⟨.atom, .one ⟨negated, caseRule flags, set⟩⟩ :: items
      else if c == '.' then
        let set := if flags.contains .dotAll then .every else .everyButLineFeed
        return ⟨.atom, .one set⟩ :: items
      else if c == '^' then
        let place := if flags.contains .multiLine then .lineStart else .textStart
        return ⟨.anchor, .place place⟩ :: items
      else if c == '$' then
        let place := if flags.contains .multiLine then .lineEnd else .lastLineEnd
        return ⟨.anchor, .place place⟩ :: items
      else if c == '?' then repeatLast 0 (some 1) t.offset items
      else if c == '*' then repeatLast 0 none t.offset items
      else if c == '+' then repeatLast 1 none t.offset items
      else if c == '\x7b' then
        match ← readBounds (t.offset + 1) with
        | none => return (← literalItem c.toNat) :: items
        | some (least, most) => repeatLast least most t.offset items
      else if c == '(' then
        match ← readGroup fuel (outermost && items.isEmpty) t.offset with
        | none => return items
        | some item => return item :: items
      else return (← literalItem c.toNat) :: items
    | escape => return (← readEscape escape) :: items

/-- What follows an opening parenthesis at an offset. Comments and flags give no item. -/
def readGroup : Nat → Bool → Nat → Reading (Option PatternItem)
  | 0, _, _ => return none
  | fuel + 1, flagsAllowed, start => do
    if !(← accept '?') then
      return some (← readCapture fuel none start)
    let t ← takeOr .endOfPattern
    if t.is ':' then
      return some ⟨.atom, ← readClosed fuel start⟩
    else if t.is 'P' then
      if ← accept '<' then
        let (name, _) ← readGroupName '>'
        return some (← readCapture fuel (some name) start)
      else if ← accept '=' then
        let (name, here) ← readGroupName ')'
        match (← get).names.lookup name with
        | none => fail (.unknownGroupName name) here
        | some number => return some (← readGroupAgain number here)
      else
        let t ← takeOr .endOfPattern
        fail (.unknownExtension ("?P" ++ t.text)) (t.offset - 2)
    else if t.is '=' then return some ⟨.atom, .ahead true (← readClosed fuel start)⟩
    else if t.is '!' then return some ⟨.atom, .ahead false (← readClosed fuel start)⟩
    else if t.is '<' then
      let t ← takeOr .endOfPattern
      if t.is '=' then return some ⟨.atom, .behind true (← readBehind fuel start)⟩
      else if t.is '!' then return some ⟨.atom, .behind false (← readBehind fuel start)⟩
      else fail (.unknownExtension ("?<" ++ t.text)) (t.offset - 2)
    else if t.is '(' then return some ⟨.atom, ← readConditional fuel start⟩
    else if t.is '>' then return some ⟨.atom, .atomic (← readClosed fuel start)⟩
    else if t.is '#' then
      skipComment start ((← remaining) + 1)
      return none
    else
      if !t.is '-' && (PatternFlag.ofToken? t).isNone then
        fail (.unknownExtension ("?" ++ t.text)) (t.offset - 1)
      let outer := (← get).flags
      match ← readFlags t with
      | (on, some off) =>
        modify ({ · with flags := flagsWithin outer on off })
        let p ← readClosed fuel start
        modify ({ · with flags := outer })
        return some ⟨.atom, p⟩
      | (on, none) =>
        if !flagsAllowed then fail .misplacedFlags start
        modify ({ · with flags := outer ++ on })
        return none

/-- What follows the opening of a condition: what it asks for, and one or two branches. -/
def readConditional : Nat → Nat → Reading Pattern
  | 0, _ => return .empty
  | fuel + 1, start => do
    let branch : Reading Pattern := do
      return .ofList ((← readSequence fuel false []).reverse.map PatternItem.pattern)
    let number ← readCondition
    let yes ← branch
    let no ← if ← accept '|' then branch else pure .empty
    if (← peek).any (·.is '|') then fail .tooManyBranches (← tell)
    if !(← accept ')') then fail .unterminatedGroup start
    return .ifCaptured number yes no

/-- The rest of a group that captures, with its closing parenthesis. -/
def readCapture : Nat → Option Text → Nat → Reading PatternItem
  | 0, _, _ => return ⟨.atom, .empty⟩
  | fuel + 1, name, start => do
    let number ← openGroup name
    let p ← readClosed fuel start
    modify fun r => { r with closed := (number, p.width) :: r.closed }
    return ⟨.atom, .group number p⟩

/-- What is looked back for, with its closing parenthesis. -/
def readBehind : Nat → Nat → Reading Pattern
  | 0, _ => return .empty
  | fuel + 1, start => do
    let r ← get
    set { r with openedBefore := some (r.openedBefore.getD r.opened) }
    let p ← readClosed fuel start
    modify ({ · with openedBefore := r.openedBefore })
    return p

/-- Alternatives and the closing parenthesis of the one at an offset. -/
def readClosed : Nat → Nat → Reading Pattern
  | 0, _ => return .empty
  | fuel + 1, start => do
    let p ← readAlternatives fuel false
    if !(← accept ')') then fail .unterminatedGroup start
    return p

end

/-- What the kinds of repetition are called. -/
def Greed.label : Greed → Text
  | greedy => "MAX_REPEAT"
  | lazy => "MIN_REPEAT"
  | possessive => "POSSESSIVE_REPEAT"

/-- The first flaw of a pattern that shows when all of it has been read: a pattern that looks back
without one length, or a repetition in a template. -/
def Pattern.flaw? (template : Bool) : Pattern → Option PatternFlaw
  | behind _ p =>
    if p.width.1 > repetitionLimit then some .looksBackTooFar
    else if p.width.2 != some p.width.1 then some .looksBackUnfixed
    else p.flaw? template
  | times greed _ _ p =>
    if template then some (.repetitionInTemplate greed.label) else p.flaw? template
  | seq p q | alt p q | ifCaptured _ p q => p.flaw? template <|> q.flaw? template
  | group _ p | atomic p | ahead _ p => p.flaw? template
  | empty | never | one _ | again _ _ _ | place _ => none

/-- Read a whole pattern. -/
def readPattern : Reading Pattern := do
  checkEnd
  let p ← readAlternatives (6 * (← remaining) + 6) true
  let r ← get
  if r.flags.contains .ascii && r.flags.contains .unicode then throw (.asciiAndUnicode, none)
  if (← peek).isSome then fail .unbalanced (← tell)
  if let some (number, here) := r.conditions.find? fun condition => r.opened < condition.1 then
    fail (.badGroupReference number) here
  if let some flaw := p.flaw? (r.flags.contains .template) then throw (flaw, none)
  return p

/-- The pattern of a text, or the first flaw in it. -/
def Pattern.parse (t : Text) (names : CharacterNames := fun _ => none) : Except PatternError Pattern :=
  let tokens := tokensOf t
  let taken := (tokens.flatMap fun token => token.text).length
  let start : PatternReader :=
    { tokens := tokens, length := t.length, dangling := taken != t.length, characterNames := names }
  match readPattern.run start with
  | .ok (p, _) => .ok p
  | .error (flaw, offset) => .error ⟨flaw, offset.map (PatternPlace.of t)⟩

end Phrasebook
