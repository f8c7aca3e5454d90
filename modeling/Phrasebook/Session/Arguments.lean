import Phrasebook.Options.Basic

/-!
# Arguments of the command line

Options have long names, which may be cut short as long as only one option is meant. A value is the
next argument, or follows an equals sign. Arguments that look like options are no values, unless
they look like negative numbers or hold a blank.

## Main definitions

* `ArgumentToken.ofText` — what an argument is.
* `Arguments.parse` — what all arguments say.
-/

namespace Phrasebook

/-- The options of the command line. -/
inductive CommandOption where
  | help
  | root
  | extensions
  | existing
  | output
  | config
  | pattern
  | framework
  | accessor
  | hook
  | source
  | noImport
  | globalFunction
  | appendComment
  | commentType
  | concurrency
  | dryRun
  | writeList
  | reportJson
  | failOnChange
  | verbose
  deriving DecidableEq

namespace CommandOption

/-- The options and their names. -/
def names : List (Text × CommandOption) :=
  [("--help", help), ("--root", root), ("--extensions", extensions), ("--existing", existing),
    ("--output", output), ("--config", config), ("--pattern", pattern), ("--framework", framework),
    ("--accessor", accessor), ("--hook", hook), ("--source", source), ("--no-import", noImport),
    ("--global-function", globalFunction), ("--append-comment", appendComment),
    ("--comment-type", commentType), ("--concurrency", concurrency), ("--dry-run", dryRun),
    ("--write-list", writeList), ("--report-json", reportJson), ("--fail-on-change", failOnChange),
    ("--verbose", verbose)]

/-- Whether an option has a value. -/
def takesValue : CommandOption → Bool
  | help | noImport | appendComment | dryRun | failOnChange | verbose => false
  | _ => true

end CommandOption

/-- Why arguments are not carried out. -/
inductive ArgumentStop where
  /-- They are not understood. -/
  | misuse
  /-- They ask for help. -/
  | help
  deriving DecidableEq

/-- What an argument is. -/
inductive ArgumentToken where
  /-- A value, or nothing that is known. -/
  | value (t : Text)
  /-- An option, and its value if it follows an equals sign. -/
  | option (o : CommandOption) (given : Option Text)
  /-- What looks like an option, and is none. -/
  | stray
  /-- A short option that cannot be carried out. -/
  | broken
  deriving DecidableEq

/-- The parts of a text before and after its first equals sign. -/
def splitAtEquals (t : Text) : Text × Option Text :=
  let before := t.takeWhile fun (c : CodePoint) => c != '='
  (before, if before.length < t.length then some (t.drop (before.length + 1)) else none)

/-- Whether a text is a number: digits, or digits after a point and possibly before it. A line feed
may follow. -/
def looksLikeNumber (t : Text) : Bool :=
  let t := if t.endsWith "\n" then t.dropLast else t
  let whole := t.takeWhile CodePoint.isDecimal
  match t.drop whole.length with
  | [] => !whole.isEmpty
  | c :: fraction => c == '.' && !fraction.isEmpty && fraction.all CodePoint.isDecimal

namespace ArgumentToken

/-- An argument with a long name. -/
def ofLong (t : Text) : Except ArgumentStop ArgumentToken :=
  let (name, given) := splitAtEquals t
  match CommandOption.names.lookup name with
  | some o => .ok (.option o given)
  | none =>
    match CommandOption.names.filter fun o => o.1.startsWith name with
    | [] => .ok (if t.has " " then .value t else .stray)
    | [o] => .ok (.option o.2 given)
    | _ => .error .misuse

/-- An argument that begins with one dash, without the dash. -/
def ofShort (t : Text) : ArgumentToken :=
  match t with
  | .scalar 'h' :: rest =>
    match (rest.dropWhile fun (c : CodePoint) => c == 'h').head? with
    | some c => if c == '-' || c == '=' then .broken else .option .help none
    | none => .option .help none
  | _ => if looksLikeNumber t || t.has " " then .value ('-' :: t) else .stray

/-- What an argument is. -/
def ofText (t : Text) : Except ArgumentStop ArgumentToken :=
  match t with
  | .scalar '-' :: .scalar '-' :: _ => ofLong t
  | .scalar '-' :: c :: rest => .ok (ofShort (c :: rest))
  | t => .ok (.value t)

end ArgumentToken

/-- What arguments are. Two dashes end the options, and neither they nor what follows can be the
value of one. -/
def argumentTokens : List Text → Except ArgumentStop (List ArgumentToken)
  | [] => .ok []
  | t :: rest =>
    if t == "--" then .ok [.stray]
    else do
      let token ← ArgumentToken.ofText t
      let others ← argumentTokens rest
      return token :: others

/-- What the arguments say. -/
structure Arguments where
  /-- The directories and files to be converted. -/
  roots : List Text := []
  /-- The suffixes of files to be converted. -/
  extensions : Text := ".cjs,.cts,.js,.jsx,.mjs,.mts,.ts,.tsx,.vue"
  /-- The file of the known messages. -/
  existing : Option Text := none
  /-- The file to which new messages are added. -/
  output : Option Text := none
  config : Option Text := none
  pattern : Option Text := none
  framework : Option Text := none
  accessor : Option Text := none
  hook : Option Text := none
  source : Option Text := none
  /-- Whether a global function is called. -/
  noImport : Bool := false
  globalFunction : Option Text := none
  appendComment : Bool := false
  commentType : Option Text := none
  /-- How many files are converted at a time. -/
  concurrency : Int := 8
  /-- Whether nothing is written. -/
  dryRun : Bool := false
  /-- The file to which the list of changed files is written. -/
  writeList : Text := []
  /-- The file to which the report is written. -/
  reportJson : Option Text := none
  /-- Whether changed files make the run fail. -/
  failOnChange : Bool := false
  deriving DecidableEq

/-- The files that arguments name, apart from those to be converted. -/
def Arguments.companions (a : Arguments) : List Text :=
  [a.existing, a.output, a.config, some a.writeList, a.reportJson].filterMap id

/-- The value of digits with single underscores between them; none if there are no digits. -/
def digitsWithUnderscores? (afterDigit : Bool) (value count : Nat) : Text → Option (Nat × Nat)
  | [] => if afterDigit then some (value, count) else none
  | c :: rest =>
    match c.decimalValue? with
    | some d => digitsWithUnderscores? true (value * 10 + d) (count + 1) rest
    | none => if c == '_' && afterDigit then digitsWithUnderscores? false value count rest else none

/-- The most digits that a number may have. -/
def mostDigits : Nat := 4300

/-- The whole number that a text spells, with white space around it. -/
def wholeNumber? (t : Text) : Option Int :=
  let t := t.trim
  let (negative, digits) : Bool × Text :=
    match t with
    | .scalar '-' :: rest => (true, rest)
    | .scalar '+' :: rest => (false, rest)
    | t => (false, t)
  match digitsWithUnderscores? false 0 0 digits with
  | some (n, count) => if count ≤ mostDigits then some (if negative then -n else n) else none
  | none => none

namespace Arguments

/-- Set an option that has a value; none if it cannot have that value. -/
def setValue (a : Arguments) (o : CommandOption) (v : Text) : Option Arguments :=
  match o with
  | .root => some { a with roots := a.roots ++ [v] }
  | .extensions => some { a with extensions := v }
  | .existing => some { a with existing := some v }
  | .output => some { a with output := some v }
  | .config => some { a with config := some v }
  | .pattern => some { a with pattern := some v }
  | .framework => if (Framework.ofName? v).isSome then some { a with framework := some v } else none
  | .accessor => some { a with accessor := some v }
  | .hook => some { a with hook := some v }
  | .source => some { a with source := some v }
  | .globalFunction => some { a with globalFunction := some v }
  | .commentType =>
    if v == "block" || v == "line" then some { a with commentType := some v } else none
  | .concurrency => (wholeNumber? v).map fun n => { a with concurrency := n }
  | .writeList => some { a with writeList := v }
  | .reportJson => some { a with reportJson := some v }
  | _ => none

/-- Set an option that has no value. -/
def setFlag (a : Arguments) (o : CommandOption) : Arguments :=
  match o with
  | .noImport => { a with noImport := true }
  | .appendComment => { a with appendComment := true }
  | .dryRun => { a with dryRun := true }
  | .failOnChange => { a with failOnChange := true }
  | _ => a

/-- Carry out an option with a value. -/
def withValue (a : Arguments) (o : CommandOption) (v : Text) : Except ArgumentStop Arguments :=
  match a.setValue o v with
  | some a => .ok a
  | none => .error .misuse

/-- Carry out arguments, one after the other. The second result tells whether there were arguments
that belong to no option. -/
def consume (a : Arguments) (stray : Bool) : List ArgumentToken → Except ArgumentStop (Arguments × Bool)
  | [] => .ok (a, stray)
  | .value _ :: rest => a.consume true rest
  | .stray :: rest => a.consume true rest
  | .broken :: _ => .error .misuse
  | .option o given :: rest =>
    match o.takesValue, given, rest with
    | true, some v, rest => do (← a.withValue o v).consume stray rest
    | true, none, .value v :: rest => do (← a.withValue o v).consume stray rest
    | true, none, _ => .error .misuse
    | false, some _, _ => .error .misuse
    | false, none, rest => if o = .help then .error .help else (a.setFlag o).consume stray rest

/-- What arguments say. There must be a root, and nothing that belongs to no option. -/
def parse (arguments : List Text) : Except ArgumentStop Arguments := do
  let tokens ← argumentTokens arguments
  let (a, stray) ← consume {} false tokens
  if stray || a.roots.isEmpty then .error .misuse else .ok a

end Arguments

end Phrasebook
