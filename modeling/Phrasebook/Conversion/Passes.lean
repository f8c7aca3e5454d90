import Phrasebook.Conversion.File

/-!
# Repeated conversion

A file is converted again and again: each pass takes the text that the one before has left, and knows
the messages that were new to it.

## Main definitions

* `convertPasses` — the outcomes of converting a file a number of times.
-/

namespace Phrasebook

/-- A catalogue with the new messages of an outcome. -/
def Catalogue.learn (c : Catalogue) (o : Outcome) : Catalogue :=
  o.extracted.foldl (fun c r => put c r.value (.single r.key)) c

/-- The outcomes of converting a file a number of times. -/
def convertPasses (parser : Parser) (file : Text) (options : Options) (dialect : Option Text)
    (code : Text) (catalogue : Catalogue) (earlier : List KeyRequest) :
    Nat → Except Failure (List Outcome)
  | 0 => .ok []
  | n + 1 => do
    let (o, requests) ← convertFile parser code file options catalogue dialect earlier
    let later ← convertPasses parser file options dialect o.code (catalogue.learn o) requests n
    return o :: later

end Phrasebook
