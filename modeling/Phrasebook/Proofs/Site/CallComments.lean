import Phrasebook.Proofs.Edit.Closed
import Phrasebook.Proofs.Import.PlainCalls
import Phrasebook.Proofs.Message.Comments
import Phrasebook.Proofs.Site.UsedOnce

/-!
# Line comments behind calls

A call may be followed by a line comment with its message. When the call takes the place of a literal, the
comment is split off again and put where it hides nothing.

## Main results

* `Options.comment_behind_call_split` — this works for every call without arguments, since a key is written
  as one string or number.
* `Site.template_comment_split_iff` — the arguments of a call are expressions of the source, copied as they
  are; so the comment behind a call with arguments is split off if and only if these are closed for the
  splitter, which knows no regular expressions and no strings inside of templates.
-/

namespace Phrasebook

open List

variable {items : List TemplateItem} {t : Text}

/-! ## Keys and names -/

lemma isStringMark_iff {c : CodePoint} : isStringMark c ↔ ∃ d ∈ "'\"`".toList, c = .scalar d := by
  rw [isStringMark, CodePoint.isOneOf, any_eq_true]
  simp only [beq_iff_eq]

lemma unmarked_of_notMem (h : ∀ d ∈ "'\"`/".toList, .scalar d ∉ t) : Unmarked t := by
  intro c hc
  constructor
  · rw [Bool.eq_false_iff]
    intro hmark
    obtain ⟨d, hd, rfl⟩ := isStringMark_iff.mp hmark
    exact h d ((by decide : "'\"`".toList ⊆ "'\"`/".toList) hd) hc
  · rintro rfl
    exact h '/' (by decide) hc

lemma unmarked_append {u : Text} (ht : Unmarked t) (hu : Unmarked u) : Unmarked (t ++ u) :=
  forall_mem_append.mpr ⟨ht, hu⟩

lemma unmarked_ofInt (n : Int) : Unmarked (Text.ofInt n) := by
  have hsigns : "'\"`/".toList.all (fun d => !d.isDigit && d != '-') = true := by decide
  simp only [all_eq_true, Bool.and_eq_true, Bool.not_eq_true', bne_iff_ne] at hsigns
  exact unmarked_of_notMem fun d hd => notMem_ofInt (hsigns d hd).1 (hsigns d hd).2 n

/-- A path of names with dots between them has no quotes and no slashes. -/
lemma unmarked_path {names : List Text} (h : ∀ name ∈ names, isIdentifier name) :
    Unmarked (Text.join "." names) := by
  have hsigns : ((Text.ofString "'\"`/").all fun c =>
      c != '.' && (!c.isIdentifierStart && !c.isIdentifierPart)) := by decide +kernel
  simp only [all_eq_true, Bool.and_eq_true, Bool.not_eq_true', bne_iff_ne] at hsigns
  refine unmarked_of_notMem fun d hd hmem => ?_
  obtain ⟨hdot, hstart, hpart⟩ := hsigns (.scalar d) (mem_map_of_mem hd)
  rcases Text.mem_join hmem with hmem | ⟨name, hname, hmem⟩
  · exact hdot (mem_singleton.mp hmem)
  · exact (isIdentifier_iff.mp (h name hname)).notMem ⟨hstart, hpart⟩ hmem

/-- A string that can be passed is one for the splitter. -/
lemma Passable.stringBody {q : CodePoint} (h : Passable q t) : StringBody q t := by
  induction h with
  | nil => exact .nil
  | plain hquote _ hslash _ ih => exact .plain hquote hslash ih
  | escape _ _ ih => exact .escape _ ih

/-- **A key is written as closed code**, whatever stands in it. -/
theorem Key.closed_literal_append_iff (key : Key) (v : Text) : Closed (key.literal ++ v) ↔ Closed v := by
  cases key with
  | number n => exact (unmarked_ofInt n).closed_append_iff
  | name t =>
    rw [show (Key.name t).literal = _ from Key.attributeLiteral_name t none, append_assoc, cons_append]
    exact closed_string_iff (by decide) (passable_flatMap_keyPoint none t).stringBody

/-! ## Calls -/

/-- Closed texts with commas between them. -/
lemma closed_join {parts : List Text} (h : ∀ part ∈ parts, Closed part) : Closed (Text.join ", " parts) := by
  induction parts with
  | nil => exact .nil
  | cons part parts ih =>
    obtain ⟨hpart, hparts⟩ := forall_mem_cons.mp h
    cases parts with
    | nil =>
      rw [Text.join, intercalate_singleton]
      exact hpart
    | cons next parts =>
      rw [Text.join, intercalate_cons_cons, ← Text.join, append_assoc]
      have hseparator : Unmarked ", " := by decide
      exact hpart.append (hseparator.closed_append_iff.mpr (ih hparts)) (.cons (c := ',') (by decide) _)

/-- An argument is closed if and only if its expression is. -/
lemma closed_argument_iff {a : Argument} (ha : Unmarked a.name) :
    Closed (if a.name == a.expression then a.name else a.name ++ ": " ++ a.expression) ↔
      Closed a.expression := by
  split_ifs with hsame
  · rw [eq_of_beq hsame]
  · exact (unmarked_append ha (by decide)).closed_append_iff

/-- Arguments are closed if the list of them is. -/
lemma closed_renderArguments_iff (arguments : List Argument) : Closed (renderArguments arguments) ↔
    Closed (Text.join ", " (arguments.map fun a =>
      if a.name == a.expression then a.name else a.name ++ ": " ++ a.expression)) := by
  have hopening : Unmarked "\x7b " := by decide
  have hclosing : Unmarked " \x7d" := by decide
  rw [renderArguments, closed_append_unmarked_iff hclosing (.cons (c := ' ') (by decide) _)]
  exact hopening.closed_append_iff

/-- **Arguments are closed** if their expressions are. -/
theorem closed_renderArguments {arguments : List Argument} (hnames : ∀ a ∈ arguments, Unmarked a.name)
    (h : ∀ a ∈ arguments, Closed a.expression) : Closed (renderArguments arguments) := by
  refine (closed_renderArguments_iff arguments).mpr (closed_join fun part hpart => ?_)
  obtain ⟨a, ha, rfl⟩ := mem_map.mp hpart
  exact (closed_argument_iff (hnames a ha)).mpr (h a ha)

lemma closed_renderArguments_singleton_iff {a : Argument} (ha : Unmarked a.name) :
    Closed (renderArguments [a]) ↔ Closed a.expression := by
  rw [closed_renderArguments_iff, map_singleton, Text.join, intercalate_singleton]
  exact closed_argument_iff ha

section Calls

variable {callName : Text} (hname : Unmarked callName) (key : Key)

include hname

/-- What stands before the arguments of a call does not matter, and neither does the bracket behind them. -/
lemma closed_call_iff (passed : Text) :
    Closed (callName ++ "(" ++ key.literal ++ passed ++ ")") ↔ Closed passed := by
  have hclosing : Unmarked ")" := by decide
  rw [closed_append_unmarked_iff hclosing (.cons (c := ')') (by decide) _), append_assoc,
    (unmarked_append hname (by decide)).closed_append_iff]
  exact key.closed_literal_append_iff passed

/-- **A call is closed** if and only if its arguments are. -/
theorem closed_callWith_iff {arguments : List Argument} (hne : arguments ≠ []) :
    Closed (callWith callName key arguments) ↔ Closed (renderArguments arguments) := by
  have hseparator : Unmarked ", " := by decide
  rw [callWith, closed_call_iff hname key]
  simp only [List.isEmpty_iff, hne, if_false]
  exact hseparator.closed_append_iff

end Calls

/-! ## Comments -/

/-- The comment behind a call is split off if and only if the call is closed. -/
lemma Options.splitLineComment_call_iff {o : Options} (hcall : o.writeCall = none)
    (hcomment : o.appendComment) (hline : o.commentType ≠ "block") (callName : Text) (key : Key)
    (canonical : Text) (arguments : List Argument) :
    o.comment canonical false = " " ++ lineComment canonical ∧
      (splitLineComment (o.call callName key canonical arguments ++ o.comment canonical false) =
        some (o.call callName key canonical arguments, (lineComment canonical).trimRight) ↔
          Closed (o.call callName key canonical arguments)) := by
  have hform : o.comment canonical false = " " ++ lineComment canonical := by
    simp [Options.comment, hcomment, hline]
  refine ⟨hform, ?_⟩
  rw [hform]
  refine splitLineComment_append_iff ?_ ?_ fun c hc => (isLineEnd_of_mem_lineComment hc).1
  · rw [o.call_eq_callWith hcall]
    exact Text.trimRightWhile_append_cons isSpaceOrTab _ [] (by decide)
  · exact ⟨' ' :: onOneLine canonical, rfl⟩

/-- **The line comment behind a call without arguments is split off**, whatever the key and the message are:
the call is left, and the comment loses white space at its end. The name that is called has no quotes and no
slashes, as `unmarked_path` says of names with dots between them. -/
theorem Options.comment_behind_call_split {o : Options} (hcall : o.writeCall = none)
    (hcomment : o.appendComment = true) (hline : o.commentType ≠ "block") {callName : Text}
    (hname : Unmarked callName) (key : Key) (canonical : Text) :
    o.comment canonical false = " " ++ lineComment canonical ∧
      splitLineComment (o.call callName key canonical [] ++ o.comment canonical false) =
        some (o.call callName key canonical [], (lineComment canonical).trimRight) := by
  obtain ⟨hform, hsplit⟩ := splitLineComment_call_iff hcall hcomment hline callName key canonical []
  refine ⟨hform, hsplit.mpr ?_⟩
  rw [o.call_eq_callWith hcall]
  exact (closed_call_iff hname key []).mpr .nil

/-- A path of names, a key with quotes, a backslash and the beginnings of comments, and a message of two lines
that ends in a blank. -/
theorem Options.comment_behind_call_split_marks :
    let o : Options := { appendComment := true, commentType := "line" }
    let names : List Text := ["i18n", "t"]
    let key : Key := .name "'//\"/*\\"
    let call : Text := "i18n.t(\"'//\\\"/*\\\\\")"
    let comment : Text := "// a // \"b\\n"
    (∀ name ∈ names, isIdentifier name = true) ∧ o.call (Text.join "." names) key "a // \"b\n " [] = call ∧
      o.comment "a // \"b\n " false = " " ++ comment ++ " " ∧
      splitLineComment (call ++ (" " ++ comment ++ " ")) = some (call, comment) := by
  intro o names key call comment
  have hnames : ∀ name ∈ names, isIdentifier name = true := by decide +kernel
  obtain ⟨hform, hsplit⟩ := comment_behind_call_split (o := o) rfl rfl (by decide) (unmarked_path hnames) key
    "a // \"b\n "
  have hcall : o.call (Text.join "." names) key "a // \"b\n " [] = call := by decide +kernel
  have hcomment : o.comment "a // \"b\n " false = " " ++ comment ++ " " := by decide +kernel
  have htrim : (lineComment "a // \"b\n ").trimRight = comment := by decide +kernel
  rw [hcall, hcomment, htrim] at hsplit
  exact ⟨hnames, hcall, hcomment, hsplit⟩

/-! ## Template literals -/

open TemplateItem

/-- The call for a template literal that is one phrase has the expressions of all substitutions as
arguments. -/
lemma TemplateSite.build_full {o : Options} (ho : o.writeCall = none) {s : TemplateSite}
    (hlays : s.text.Lays items) (hfull : s.full) {p : Phrase} {key : Key} (hresolved : s.resolved = [(p, key)])
    (hstart : p.start = 0) (hstop : p.stop = s.text.combined.length) (render : Renderer) :
    s.build o render = callWith s.callName key (TemplateItem.arguments render items) ++
      o.comment (canonicalize p.payload) !s.bare := by
  have hall : Occupies items p items := by
    refine ⟨[], [], by simp, hstart, ?_⟩
    rw [hstart, hstop, hlays.combined, Nat.zero_add]
    rfl
  rw [build, hfull, hresolved]
  exact lookup_eq ho hlays render (!s.bare) key hall

lemma TemplateItem.unmarked_of_mem_arguments {render : TemplateSite.Renderer} :
    ∀ a ∈ arguments render items, Unmarked a.name := by
  intro a ha
  obtain ⟨i, hi, rfl⟩ := mem_mapIdx.mp ha
  exact unmarked_append (by decide) (unmarked_ofInt (i + 1 : Nat))

/-- A template with markers has arguments. -/
lemma TemplateText.Lays.arguments_ne_nil {text : TemplateText} (hlays : text.Lays items)
    (h : text.markers ≠ []) (render : TemplateSite.Renderer) : TemplateItem.arguments render items ≠ [] := by
  rw [hlays.markers] at h
  rw [TemplateItem.arguments, ne_eq, mapIdx_eq_nil_iff, ← map_marks 0 0 items]
  simpa using h

/-- **When the line comment behind the call for a template literal is split off.** Take a template literal that
is one phrase and has substitutions, and that stands where a line comment can. What takes its place is a call
with the expressions of the substitutions as arguments, and the comment. The comment is split off if and only
if the arguments are closed; so it is if every expression is closed, and for one substitution only then. If
there is a place for it behind brackets that follow the literal, the comment goes there if and only if the
arguments are closed. -/
theorem Site.template_comment_split_iff {t : Text} {n : Node} {text : TemplateText} {d : Delimiter} {site : Site}
    (htext : TemplateText.ofNode? t n = some text) (hliteral : site.literal = .template text)
    (hresolved : site.IsResolved d) (hfull : site.full = true) (hmarkers : text.markers ≠ [])
    (hbare : site.cursor.allowsLineComment = true) {o : Options} (hcall : o.writeCall = none)
    (hcomment : o.appendComment = true) (hline : o.commentType ≠ "block") (callName : Text)
    (hname : Unmarked callName) (render : TemplateSite.Renderer) :
    let arguments := TemplateItem.arguments render (TemplateText.layout t n)
    ∃ p key, site.resolved = [(p, key)] ∧
      let call := callWith callName key arguments
      let comment := lineComment (canonicalize p.payload)
      let replacement := (site.replacement o callName).build o render
      replacement = call ++ (" " ++ comment) ∧
      (splitLineComment replacement = some (call, comment.trimRight) ↔ Closed (renderArguments arguments)) ∧
      ((∀ a ∈ arguments, Closed a.expression) → Closed (renderArguments arguments)) ∧
      (∀ a, arguments = [a] → (Closed (renderArguments arguments) ↔ Closed a.expression)) ∧
      ∀ source start stop position needsLineEnd, commentPlacement source stop = some (position, needsLineEnd) →
        position ≠ stop →
          (planSplices source start stop replacement =
            [⟨position, position, " " ++ comment.trimRight ++ if needsLineEnd then source.newline else []⟩,
              ⟨start, stop, call⟩] ↔ Closed (renderArguments arguments)) := by
  intro arguments
  let s : TemplateSite := ⟨text, site.resolved, site.full, callName, site.cursor.allowsLineComment⟩
  have hlays : s.text.Lays (TemplateText.layout t n) := TemplateText.lays_ofNode? htext
  have hsound : s.IsSound := hresolved.isSound hliteral _ _
  obtain ⟨p, key, hone, hstart, hstop⟩ := hsound.full hfull
  refine ⟨p, key, hone, ?_⟩
  intro call comment replacement
  have hnames : ∀ a ∈ arguments, Unmarked a.name := unmarked_of_mem_arguments
  have hreplacement : site.replacement o callName = .template s := by simp only [Site.replacement, hliteral, s]
  obtain ⟨hform, hsplit⟩ := Options.splitLineComment_call_iff hcall hcomment hline callName key
    (canonicalize p.payload) arguments
  have hbuild : replacement = call ++ (" " ++ comment) := by
    have hbuild := TemplateSite.build_full hcall hlays hfull hone hstart hstop render
    rw [show (!s.bare) = false by simp [s, hbare], hform] at hbuild
    simpa only [replacement, hreplacement, Replacement.build] using hbuild
  have hcalls : Closed call ↔ Closed (renderArguments arguments) :=
    closed_callWith_iff hname key (hlays.arguments_ne_nil hmarkers render)
  rw [hform, o.call_eq_callWith hcall, hcalls, ← hbuild] at hsplit
  refine ⟨hbuild, hsplit, closed_renderArguments hnames, ?_, ?_⟩
  · rintro a ha
    rw [ha]
    exact closed_renderArguments_singleton_iff (hnames a (by simp [ha]))
  · intro source start stop position needsLineEnd hplace hne
    refine ⟨fun hplan => ?_, fun hclosed => ?_⟩
    · cases hsplit' : splitLineComment replacement with
      | none => simp [planSplices, hsplit'] at hplan
      | some split =>
        simp only [planSplices, hsplit', hplace, if_neg hne, List.cons.injEq, Splice.mk.injEq, true_and,
          and_true] at hplan
        have hclosed := closed_of_splitLineComment hsplit'
        rw [hplan.2] at hclosed
        exact hcalls.mp hclosed
    · simp only [planSplices, hsplit.mpr hclosed, hplace, if_neg hne, call, comment]

/-- A regular expression with a quote in a substitution, and a string and a block comment with one. The comment
behind the first call stays where it is, and hides the bracket that follows; the other one goes behind it. -/
theorem Site.template_comment_split_iff_quotes :
    let d := (Delimiter.ofText "(.+)").toOption.get (by with_unfolding_all rfl)
    let o : Options := { appendComment := true, commentType := "line" }
    let phrase : Phrase × Key := (⟨"Hi $\x7b0\x7d", "Hi $\x7b0\x7d", 0, 7⟩, .name "Hi \x7barg1\x7d")
    let pattern : Text := "a(`Hi $\x7bs.replace(/'/g, b)\x7d`);"
    let patternNode : Node := .mk { kind := "template_string", start := 2, stop := 28 } [
      .mk { kind := "template_substitution", start := 6, stop := 27 } [
        .mk { kind := "call_expression", start := 8, stop := 26 } []]]
    let patternSite : Site := ⟨⟨patternNode, []⟩, .template ⟨"Hi $\x7b0\x7d", [⟨3, 7, 8, 26⟩]⟩, [phrase], true⟩
    let quoted : Text := "a(`Hi $\x7bf(\"it's\") /* ' */ + b\x7d`);"
    let quotedNode : Node := .mk { kind := "template_string", start := 2, stop := 31 } [
      .mk { kind := "template_substitution", start := 6, stop := 30 } [
        .mk { kind := "binary_expression", start := 8, stop := 29 } []]]
    let quotedSite : Site := ⟨⟨quotedNode, []⟩, .template ⟨"Hi $\x7b0\x7d", [⟨3, 7, 8, 29⟩]⟩, [phrase], true⟩
    let replacement (site : Site) (t : Text) : Text := (site.replacement o "t").build o t.slice
    patternSite.IsResolved d ∧ quotedSite.IsResolved d ∧
      ¬ Closed "s.replace(/'/g, b)" ∧ splitLineComment (replacement patternSite pattern) = none ∧
      planSplices pattern 2 28 (replacement patternSite pattern) =
        [⟨2, 28, "t(\"Hi \x7barg1\x7d\", \x7b arg1: s.replace(/'/g, b) \x7d) // Hi \x7barg1\x7d"⟩] ∧
      Closed "f(\"it's\") /* ' */ + b" ∧
      planSplices quoted 2 31 (replacement quotedSite quoted) =
        [⟨33, 33, " // Hi \x7barg1\x7d"⟩,
          ⟨2, 31, "t(\"Hi \x7barg1\x7d\", \x7b arg1: f(\"it's\") /* ' */ + b \x7d)"⟩] := by
  intro d o phrase pattern patternNode patternSite quoted quotedNode quotedSite replacement
  have hpattern : patternSite.IsResolved d := ⟨by decide +kernel, by decide +kernel, by decide +kernel⟩
  have hquoted : quotedSite.IsResolved d := ⟨by decide +kernel, by decide +kernel, by decide +kernel⟩
  obtain ⟨_, _, _, _, hsplit, -, hsingle, -⟩ := template_comment_split_iff (o := o)
    (by decide +kernel : TemplateText.ofNode? pattern patternNode = some _) rfl hpattern rfl (by simp) rfl rfl rfl
    (by decide) "t" (by decide) pattern.slice
  obtain ⟨p, key, hone, _, hsplit', -, hsingle', hplan⟩ := template_comment_split_iff (o := o)
    (by decide +kernel : TemplateText.ofNode? quoted quotedNode = some _) rfl hquoted rfl (by simp) rfl rfl rfl
    (by decide) "t" (by decide) quoted.slice
  obtain ⟨rfl, rfl⟩ := Prod.mk.inj (List.cons.inj hone).1
  have hnone : splitLineComment (replacement patternSite pattern) = none := by decide +kernel
  have hsome := hsplit'.mp (by decide +kernel)
  refine ⟨hpattern, hquoted, fun hclosed => ?_, hnone, by decide +kernel, ?_, ?_⟩
  · have hargument := hsingle ⟨"arg1", "s.replace(/'/g, b)"⟩ (by decide +kernel)
    exact absurd (hnone.symm.trans (hsplit.mpr (hargument.mpr hclosed))) nofun
  · exact (hsingle' ⟨"arg1", "f(\"it's\") /* ' */ + b"⟩ (by decide +kernel)).mp hsome
  · exact ((hplan quoted 2 31 33 false (by decide +kernel) (by decide)).mpr hsome).trans (by decide +kernel)

end Phrasebook
