import Phrasebook.Delimiter
import Phrasebook.Message.Canonical
import Phrasebook.Message.Catalogue
import Phrasebook.Problem

/-!
# Ledgers

The books of one run. A phrase is given a key: a key that the catalogue knows for its text, unless
the caller decides otherwise, or a new key, which is minted once for every text. Every key that is
given out is recorded, new keys and known keys apart, and no record is made twice.

The caller's key generator may remember its calls: it is given the calls before, and the ledger
keeps them.

## Main definitions

* `Ledger`, `Bookkeeping` — the books, and steps that write into them.
* `resolveKey` — the key of a phrase, if the delimiter marks one.
-/

namespace Phrasebook

/-- Where a phrase stands. -/
structure Location where
  file : Text
  position : Position
  deriving DecidableEq

/-- A line in the books: a key, the message text, and where it was given out first. -/
structure Record where
  key : Key
  /-- The message text. -/
  value : Text
  location : Location
  deriving DecidableEq

/-- A call of the key generator: the message text and the file. -/
abbrev KeyRequest := Text × Text

/-- A key generator: from the calls before, the latest first, and a call to a key, or to the reason
why there is none. -/
abbrev KeyGenerator := List KeyRequest → KeyRequest → Except Text Key

/-- What the caller is told about a text that the catalogue knows. -/
structure Conflict where
  /-- The primary key. -/
  key : Key
  value : Text
  location : Location
  /-- All keys of the text. -/
  keys : List Key

/-- What happens to a text that the catalogue knows. -/
inductive ConflictPolicy where
  /-- It gets its primary key. -/
  | keep
  /-- It gets a new key. -/
  | mint
  /-- The caller decides; no key means the primary one. -/
  | ask (decide : Conflict → Except Text (Option Key))

/-- How keys are chosen. -/
structure KeyPolicy where
  /-- How new keys are made; a text is its own key if nothing is said. -/
  generate : Option KeyGenerator := none
  /-- What happens to a text that the catalogue knows. -/
  onConflict : ConflictPolicy := .keep

/-- The books of a run. -/
structure Ledger where
  /-- The keys minted for texts that the catalogue does not know. -/
  generated : List (Text × Key) := []
  /-- The records of new keys. -/
  extracted : List Record := []
  /-- The records of known keys. -/
  used : List Record := []
  /-- The calls of the key generator, the latest first. -/
  requests : List KeyRequest := []

/-- A step that keeps the books and may fail; the books stay as they are at the failure. -/
abbrev Bookkeeping (α : Type) := ExceptT Failure (StateM Ledger) α

/-- A step that keeps no books. -/
def Bookkeeping.ofExcept {α : Type} : Except Failure α → Bookkeeping α
  | .ok a => return a
  | .error failure => throw failure

namespace Ledger

/-- The ledger with a record of a new key, unless there is one of that key and text. -/
def recordExtracted (l : Ledger) (r : Record) : Ledger :=
  if l.extracted.any fun old => old.key == r.key && old.value == r.value then l
  else { l with extracted := l.extracted ++ [r] }

/-- The ledger with a record of a known key, unless there is one of that key, text and file. -/
def recordUsed (l : Ledger) (r : Record) : Ledger :=
  if l.used.any fun old =>
    old.key == r.key && old.value == r.value && old.location.file == r.location.file then l
  else { l with used := l.used ++ [r] }

end Ledger

/-- Record a new key and give it out. -/
def giveNew (value : Text) (location : Location) (key : Key) : Bookkeeping Key := do
  modify fun l => l.recordExtracted ⟨key, value, location⟩
  return key

/-- Record a known key and give it out. -/
def giveKnown (value : Text) (location : Location) (key : Key) : Bookkeeping Key := do
  modify fun l => l.recordUsed ⟨key, value, location⟩
  return key

/-- Mint a key for a text. -/
def mintKey (generate : Option KeyGenerator) (value : Text) (location : Location) :
    Bookkeeping Key := do
  match generate with
  | none => return .name value
  | some generate =>
    let earlier := (← get).requests
    let request := (value, location.file)
    modify fun l => { l with requests := request :: earlier }
    match generate earlier request with
    | .ok key => return key
    | .error reason => throw (.refused reason)

/-- The key of a text that the catalogue knows. -/
def resolveKnown (policy : KeyPolicy) (entry : Entry) (value : Text) (location : Location) :
    Bookkeeping Key := do
  match policy.onConflict with
  | .keep => giveKnown value location entry.primary
  | .mint => giveNew value location (← mintKey policy.generate value location)
  | .ask decide =>
    match decide ⟨entry.primary, value, location, entry.keys⟩ with
    | .error reason => throw (.refused reason)
    | .ok none => giveKnown value location entry.primary
    | .ok (some key) =>
      if entry.keys.contains key then giveKnown value location key
      else giveNew value location key

/-- The key of a text that the catalogue does not know. -/
def resolveNew (policy : KeyPolicy) (value : Text) (location : Location) : Bookkeeping Key := do
  match (← get).generated.lookup value with
  | some key => giveNew value location key
  | none =>
    let key ← mintKey policy.generate value location
    modify fun l => { l with generated := put l.generated value key }
    giveNew value location key

/-- Give the phrase `full` its key; none if the delimiter marks no phrase in it. -/
def resolveKey (delimiter : Delimiter) (policy : KeyPolicy) (catalogue : Catalogue)
    (location : Location) (full : Text) : Bookkeeping (Option Key) := do
  match delimiter.phrase? full with
  | none => return none
  | some phrase =>
    let value := canonicalize phrase.payload
    match catalogue.lookup value with
    | some entry => return some (← resolveKnown policy entry value location)
    | none => return some (← resolveNew policy value location)

end Phrasebook
