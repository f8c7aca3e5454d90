import Phrasebook.Conversion.Passes
import Phrasebook.Main
import Phrasebook.Proofs.Edit.CommentSafety
import Phrasebook.Proofs.Conversion.AllOrNothing
import Phrasebook.Proofs.Conversion.BlockStructure
import Phrasebook.Proofs.Component.Idempotence
import Phrasebook.Proofs.Conversion.Encodable
import Phrasebook.Proofs.Session.FoundAgain
import Phrasebook.Proofs.Conversion.Owners
import Phrasebook.Proofs.Site.KeptText
import Phrasebook.Proofs.Message.KeyValue
import Phrasebook.Proofs.Site.LiveCalls
import Phrasebook.Proofs.Message.Bindings
import Phrasebook.Proofs.Import.ServedOnce
import Phrasebook.Proofs.Component.OpenTags
import Phrasebook.Proofs.Component.LookupArguments
import Phrasebook.Proofs.Component.AttributeQuotes
import Phrasebook.Proofs.Edit.ListOrder
import Phrasebook.Proofs.Import.SpecifierList
import Phrasebook.Proofs.Pattern.LinePhrases
import Phrasebook.Proofs.Site.CallComments
import Phrasebook.Proofs.Accessor.Markup
import Phrasebook.Proofs.Text.Coordinates
import Phrasebook.Proofs.Message.Inversion
import Phrasebook.Proofs.Literal.SourceMap
