import Phrasebook.Message.Placeholder
import Phrasebook.Options.Basic

/-!
# Lookup calls

What takes the place of a phrase: the call that looks its message up, and a comment with the
message text if the caller wants one. The text of a block comment cannot end it, and that of a
line comment stays on its line.

## Main definitions

* `Options.call`, `Options.comment` — the call that looks a message up, and the comment after it.
* `Options.refusal?` — why such a call is not written.
-/

namespace Phrasebook

/-- A text that cannot end a block comment. -/
def withoutCommentEnd (t : Text) : Text := t.replaceAll "*/" "* /"

/-- A text as a block comment. -/
def blockComment (t : Text) : Text := "/* " ++ withoutCommentEnd t ++ " */"

/-- A text on one line: carriage returns and line feeds are spelled out. -/
def onOneLine (t : Text) : Text := (t.replaceAll "\r" "\\r").replaceAll "\n" "\\n"

/-- A text as a line comment. -/
def lineComment (t : Text) : Text := "// " ++ onOneLine t

namespace Options

/-- The call that looks up the message text `canonical` under a key. -/
def call (o : Options) (callName : Text) (key : Key) (canonical : Text)
    (arguments : List Argument) : Text :=
  match o.writeCall with
  | some write => write callName key canonical
  | none =>
    if arguments.isEmpty then callName ++ "(" ++ key.literal ++ ")"
    else callName ++ "(" ++ key.literal ++ ", " ++ renderArguments arguments ++ ")"

/-- Why the caller does not write the call for a payload; none if there is such a call. -/
def refusal? (o : Options) (callName : Text) (key : Key) (payload : Text) : Option Text :=
  o.writeCall.bind fun _ => o.refuseCall callName key (canonicalize payload)

/-- The comment after a call; none is wanted unless the options say so. -/
def comment (o : Options) (canonical : Text) (blockOnly : Bool) : Text :=
  if !o.appendComment then []
  else if blockOnly || o.commentType == "block" then " " ++ blockComment canonical
  else " " ++ lineComment canonical

end Options

end Phrasebook
