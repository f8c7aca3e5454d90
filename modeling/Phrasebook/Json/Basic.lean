import Phrasebook.Text.Basic

/-!
# JSON values

Values of the data format in which catalogues, settings and reports are kept. The members of an
object keep their order, since flattening a catalogue and checking settings follow it.

## Main definitions

* `Json` — a value; a number with a fraction or an exponent is kept as it was spelled.
-/

namespace Phrasebook

/-- A JSON value. A number with a fraction or an exponent is kept as it was spelled. -/
inductive Json where
  | null
  | bool (b : Bool)
  /-- A number without fraction and exponent. -/
  | integer (n : Int)
  /-- Any other number, as it was spelled. -/
  | real (spelling : Text)
  | text (t : Text)
  | array (items : List Json)
  /-- Named values in their order. -/
  | object (members : List (Text × Json))

instance : Inhabited Json := ⟨.null⟩

/-- The members of an object. -/
def Json.members? : Json → Option (List (Text × Json))
  | object members => some members
  | _ => none

end Phrasebook
