import Phrasebook.Literal.Template
import Phrasebook.Message.Call
import Phrasebook.Site.Literal

/-!
# Replacements

What takes the place of a site. A literal that is one phrase becomes a call; otherwise the rest of
the literal is kept around the calls. The expressions in a template may hold sites themselves, so
its replacement depends on how a span of the source is rendered.

## Main definitions

* `TemplateSite.build` — what takes the place of a template.
* `Site.replacement`, `Site.refusals` — what takes the place of a site, and why it may not.
-/

namespace Phrasebook

/-- A call that looks a payload up, with its comment. -/
def Options.lookup (o : Options) (callName : Text) (key : Key) (payload : Text)
    (arguments : List Argument) (blockOnly : Bool) : Text :=
  o.call callName key (canonicalize payload) arguments ++ o.comment (canonicalize payload) blockOnly

/-- A text from `cursor` on in which phrases are replaced; `segment` gives what stands between them,
by its span. -/
def interpolate (segment : Nat → Nat → Text) (write : Phrase → Key → Text) (length cursor : Nat) :
    List (Phrase × Key) → Text
  | [] => segment cursor length
  | (p, key) :: rest =>
    segment cursor p.start ++ write p key ++ interpolate segment write length p.stop rest

/-- An expression as a substitution of a template. -/
def substitution (expression : Text) : Text := "$\x7b" ++ expression ++ "\x7d"

/-- A text as a template literal. -/
def backticked (t : Text) : Text := "`" ++ t ++ "`"

/-- A text in braces. -/
def braced (t : Text) : Text := "\x7b" ++ t ++ "\x7d"

/-- A call inside of a template. -/
def Options.embedded (o : Options) (callName : Text) (p : Phrase) (key : Key) : Text :=
  substitution (o.lookup callName key p.payload [] true)

/-- The spelling of the decoded characters in a span. -/
def spelledSegment (raw : Text) (decoded : Decoded) (start stop : Nat) : Text :=
  let starts := decoded.starts raw.length
  raw.slice (starts.getD start raw.length) (starts.getD stop raw.length)

/-- A quoted string as a template literal with calls in it. -/
def spelledTemplate (raw : Text) (decoded : Decoded) (write : Phrase → Key → Text)
    (resolved : List (Phrase × Key)) : Text :=
  backticked (interpolate (fun start stop => escapeSpelled (spelledSegment raw decoded start stop))
    write decoded.length 0 resolved)

/-- A text without escapes as a template literal with calls in it. -/
def plainTemplate (raw : Text) (write : Phrase → Key → Text) (resolved : List (Phrase × Key)) :
    Text :=
  backticked (interpolate (fun start stop => escapePlain (raw.slice start stop)) write raw.length 0
    resolved)

/-- A template whose phrases are to be replaced. -/
structure TemplateSite where
  text : TemplateText
  resolved : List (Phrase × Key)
  /-- Whether it is one phrase and nothing else. -/
  full : Bool
  callName : Text
  /-- Whether a line comment can stand there. -/
  bare : Bool
  deriving DecidableEq

namespace TemplateSite

/-- How a span of the source is rendered. -/
abbrev Renderer := Nat → Nat → Text

/-- The arguments of a call: the expressions of the markers in its phrase. -/
def arguments (s : TemplateSite) (render : Renderer) (p : Phrase) : List Argument :=
  (s.text.markers.filter fun m => m.within p.start p.stop).mapIdx fun i m =>
    ⟨argumentName (i + 1), render m.expressionStart m.expressionStop⟩

/-- The text from `cursor` to `stop`, with the expressions in the place of their markers. -/
def fillMarkers (s : TemplateSite) (render : Renderer) (cursor stop : Nat) : List Marker → Text
  | [] => s.text.combined.slice cursor stop
  | m :: rest =>
    s.text.combined.slice cursor m.start
      ++ substitution (render m.expressionStart m.expressionStop)
      ++ s.fillMarkers render m.stop stop rest

/-- The text of a span, with the expressions in the place of their markers. -/
def segment (s : TemplateSite) (render : Renderer) (start stop : Nat) : Text :=
  s.fillMarkers render start stop (s.text.markers.filter fun m => m.within start stop)

/-- The call for a phrase. -/
def lookup (o : Options) (s : TemplateSite) (render : Renderer) (blockOnly : Bool) (p : Phrase)
    (key : Key) : Text :=
  o.lookup s.callName key p.payload (s.arguments render p) blockOnly

/-- What takes the place of a template. -/
def build (o : Options) (s : TemplateSite) (render : Renderer) : Text :=
  match s.full, s.resolved with
  | true, (p, key) :: _ => s.lookup o render (!s.bare) p key
  | _, resolved =>
    backticked (interpolate (s.segment render)
      (fun p key => substitution (s.lookup o render true p key)) s.text.combined.length 0 resolved)

/-- Why calls in the expressions of a span are not written; `inner` tells it of one expression. -/
def refusalsIn (s : TemplateSite) (inner : Nat → Nat → List Text) (start stop : Nat) : List Text :=
  (s.text.markers.filter fun m => m.within start stop).flatMap fun m =>
    inner m.expressionStart m.expressionStop

/-- Why the call for a phrase is not written, and before that, those in its arguments. -/
def refusalsOf (o : Options) (s : TemplateSite) (inner : Nat → Nat → List Text) (p : Phrase)
    (key : Key) : List Text :=
  s.refusalsIn inner p.start p.stop ++ (o.refusal? s.callName key p.payload).toList

/-- Why calls of a template from `cursor` on are not written, in the order of the calls. -/
def refusalsFrom (o : Options) (s : TemplateSite) (inner : Nat → Nat → List Text) (cursor : Nat) :
    List (Phrase × Key) → List Text
  | [] => s.refusalsIn inner cursor s.text.combined.length
  | (p, key) :: rest =>
    s.refusalsIn inner cursor p.start ++ s.refusalsOf o inner p key
      ++ s.refusalsFrom o inner p.stop rest

/-- Why calls of a template are not written. -/
def refusals (o : Options) (s : TemplateSite) (inner : Nat → Nat → List Text) : List Text :=
  match s.full, s.resolved with
  | true, (p, key) :: _ => s.refusalsOf o inner p key
  | _, resolved => s.refusalsFrom o inner 0 resolved

end TemplateSite

/-- What takes the place of a site. -/
inductive Replacement where
  /-- A text that depends on nothing else. -/
  | fixed (t : Text)
  /-- A template, which depends on how its expressions are rendered. -/
  | template (s : TemplateSite)
  deriving DecidableEq

/-- The text of a replacement. -/
def Replacement.build (o : Options) (render : TemplateSite.Renderer) : Replacement → Text
  | fixed t => t
  | template s => s.build o render

/-- Why calls of a replacement are not written. -/
def Replacement.refusals (o : Options) (inner : Nat → Nat → List Text) : Replacement → List Text
  | fixed _ => []
  | template s => s.refusals o inner

/-- Whether a line comment can stand at a node: not in markup, nor in a substitution. -/
def Cursor.allowsLineComment (c : Cursor) : Bool :=
  !c.ancestors.any fun a =>
    ["jsx_expression", "jsx_attribute", "template_substitution"].contains a.kind

namespace Site

/-- A call for the one phrase of a site. -/
def single (o : Options) (callName : Text) (blockOnly : Bool) (s : Site) : Text :=
  (s.resolved.head?.map fun (p, key) => o.lookup callName key p.payload [] blockOnly).getD []

/-- A piece of text in markup with calls in it. -/
def inMarkup (o : Options) (callName raw : Text) (s : Site) : Text :=
  interpolate raw.slice
    (fun p key => braced (o.lookup callName key p.payload (informalArguments p.payload) true))
    raw.length 0 s.resolved

/-- What takes the place of a site. -/
def replacement (o : Options) (callName : Text) (s : Site) : Replacement :=
  let bare := s.cursor.allowsLineComment
  match s.literal with
  | .quoted raw decoded =>
    .fixed (if s.full then s.single o callName !bare
      else spelledTemplate raw decoded (o.embedded callName) s.resolved)
  | .value raw =>
    .fixed (braced (if s.full then s.single o callName true
      else plainTemplate raw (o.embedded callName) s.resolved))
  | .markup raw => .fixed (s.inMarkup o callName raw)
  | .template text => .template ⟨text, s.resolved, s.full, callName, bare⟩

/-- Why calls of a site are not written; those of a template are made later. -/
def refusals (o : Options) (callName : Text) (s : Site) : List Text :=
  match s.literal with
  | .template _ => []
  | _ => s.resolved.filterMap fun (p, key) => o.refusal? callName key p.payload

end Site

end Phrasebook
