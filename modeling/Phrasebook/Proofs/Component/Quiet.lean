import Phrasebook.Proofs.Component.Settled
import Phrasebook.Proofs.Message.Arguments
import Phrasebook.Proofs.Message.KeyLiteral

/-!
# Expressions that are written

What takes the place of a phrase is an expression: a lookup, or a template literal with lookups in it.
Every quote in it belongs to a string literal, and that is the argument of a lookup.

## Main results

* `Marking.Quiet.append` — such expressions can be put together, also with literals that mark no phrase.
* `Marking.Quiet.expressionSettled` — they are settled.
-/

namespace Phrasebook

open List

variable {g t u callName e ending r t' : Text} {arguments : List Argument} {m : Marking}
  {q : CodePoint} {resolved : List (Phrase × Key)}

/-- A text without quotes. -/
def Unquoted (t : Text) : Prop := ∀ c ∈ t, c.isQuote = false

instance (t : Text) : Decidable (Unquoted t) := inferInstanceAs (Decidable (∀ c ∈ t, _))

lemma Unquoted.append (h : Unquoted t) (h' : Unquoted t') : Unquoted (t ++ t') :=
  forall_mem_append.mpr ⟨h, h'⟩

namespace Marking

variable {m : Marking}

/-! ## What opens a lookup -/

/-- The end of a text without the white space behind it. -/
lemma endsWith_trimRight (t ending : Text) : t.trimRight.endsWith ending =
    ending.reverse.isPrefixOf (t.reverse.dropWhile CodePoint.isBlank) := by
  rw [Text.endsWith, Text.trimRight, Text.trimRightWhile, reverse_reverse]

lemma endsWith_trimRight_append (hne : ending ≠ []) (h : g.trimRight.endsWith ending)
    (u : Text) : Text.endsWith (Text.trimRight (u ++ g)) ending := by
  rw [endsWith_trimRight, isPrefixOf_iff_prefix] at h ⊢
  have hdrop : g.reverse.dropWhile CodePoint.isBlank ≠ [] := fun hnil => by
    rw [hnil, prefix_nil] at h
    exact hne (reverse_eq_nil_iff.mp h)
  rw [reverse_append, dropWhile_append, if_neg (by simpa using hdrop)]
  exact h.trans (prefix_append _ _)

/-- What a text ends with stands behind a quote in it, unless it holds one. -/
lemma endsWith_trimRight_of_append (hne : ending ≠ []) (hending : Unquoted ending) (hq : q.isQuote)
    (h : Text.endsWith (Text.trimRight (u ++ [q] ++ g)) ending) :
    g.trimRight.endsWith ending := by
  have hblank : q.isBlank = false := by
    rcases (Bool.or_eq_true_iff.mp hq) with heq | heq <;> rw [eq_of_beq heq] <;> decide
  have hnot : q ∉ ending.reverse := fun hmem => by
    have hfalse := hending q (mem_reverse.mp hmem)
    rw [hq] at hfalse
    cases hfalse
  rw [endsWith_trimRight, isPrefixOf_iff_prefix] at h ⊢
  rw [reverse_append, reverse_append, reverse_singleton, dropWhile_append,
    singleton_append, dropWhile_cons_of_neg (by simp [hblank])] at h
  split_ifs at h with hnil
  · -- the quote would have to be the last character
    obtain ⟨c, rest, hcons⟩ := exists_cons_of_ne_nil (mt reverse_eq_nil_iff.mp hne)
    obtain ⟨s, hs⟩ := h
    rw [hcons] at hs hnot
    obtain ⟨rfl, -⟩ := List.cons.inj hs
    exact absurd mem_cons_self hnot
  · obtain ⟨s, hs⟩ := h
    rcases append_eq_append_iff.mp hs with ⟨x, hx, -⟩ | ⟨x, hx, hrest⟩
    · exact ⟨x, hx.symm⟩
    · cases x with
      | nil =>
        rw [append_nil] at hx
        exact hx ▸ prefix_rfl
      | cons c x =>
        obtain ⟨rfl, -⟩ := List.cons.inj hrest
        refine absurd ?_ hnot
        rw [hx]
        simp

/-- What opens a lookup does so behind any text. -/
lemma opensLookup_append (h : opensLookup callName g) (u : Text) :
    opensLookup callName (u ++ g) := by
  rw [opensLookup, Bool.or_eq_true] at h ⊢
  exact h.imp (fun h => endsWith_trimRight_append (by simp [Text.ofString]) h u)
    fun h => endsWith_trimRight_append (by simp [Text.ofString]) h u

/-- A lookup that is open stays open behind a quote: its name has none. -/
lemma opensLookup_of_append (hcall : Unquoted callName) (hq : q.isQuote)
    (h : opensLookup callName (u ++ [q] ++ g)) : opensLookup callName g := by
  have hparen : Unquoted "(" := by decide
  have hglobal : Unquoted globalCallName := by decide
  rw [opensLookup, Bool.or_eq_true] at h ⊢
  exact h.imp
    (fun h => endsWith_trimRight_of_append (by simp [Text.ofString]) (hcall.append hparen) hq h)
    fun h => endsWith_trimRight_of_append (by simp [Text.ofString]) (hglobal.append hparen) hq h

/-- The name of the function and a parenthesis open a lookup. -/
lemma opensLookup_call (callName : Text) : opensLookup callName (callName ++ "(") := by
  rw [opensLookup, Bool.or_eq_true]
  left
  rw [endsWith_trimRight, isPrefixOf_iff_prefix]
  have hreverse : (callName ++ "(").reverse = .scalar '(' :: callName.reverse := by
    rw [reverse_append]
    rfl
  rw [hreverse]
  exact ⟨[], by rw [append_nil, dropWhile_cons_of_neg (by decide)]⟩

/-! ## Quiet expressions -/

/-- **Expressions in which every quote belongs to a settled literal.** -/
inductive Quiet (m : Marking) : Text → Prop where
  | gap {g : Text} (hg : Unquoted g) : Quiet m g
  /-- A literal, which is the argument of a lookup or marks no phrase, and what follows. -/
  | literal {g inner rest : Text} {q : CodePoint} (hg : Unquoted g) (hq : q.isQuote = true)
      (hinner : Passable q inner) (hsettled : opensLookup m.callName g = true ∨ m.LiteralSettled inner)
      (hrest : Quiet m rest) :
    Quiet m (g ++ (q :: inner ++ [q] ++ rest))

namespace Quiet

lemma unquoted_append (hg : Unquoted g) (h : m.Quiet t) : m.Quiet (g ++ t) := by
  cases h with
  | gap hg' => exact .gap (hg.append hg')
  | literal hg' hq hinner hsettled hrest =>
    rw [← append_assoc]
    exact .literal (hg.append hg') hq hinner (hsettled.imp_left fun h => opensLookup_append h g) hrest

/-- **Quiet expressions one behind the other.** -/
theorem append (h : m.Quiet t) (h' : m.Quiet t') : m.Quiet (t ++ t') := by
  induction h with
  | gap hg => exact h'.unquoted_append hg
  | literal hg hq hinner hsettled hrest ih =>
    rw [append_assoc, append_assoc]
    exact .literal hg hq hinner hsettled ih

end Quiet

lemma literalInside_eq {inner : Text} (q : CodePoint) :
    literalInside (u ++ (q :: inner ++ [q] ++ r)) (u.length, u.length + (inner.length + 2)) = inner := by
  have hshape : u ++ (q :: inner ++ [q] ++ r) = (u ++ [q]) ++ (inner ++ ([q] ++ r)) := by simp
  have hlen : u.length + 1 = (u ++ [q]).length := by simp
  rw [literalInside, hshape, Text.slice_eq_take_drop, hlen, drop_left]
  have hstop : u.length + (inner.length + 2) - 1 - (u ++ [q]).length = inner.length := by
    rw [← hlen]
    omega
  rw [hstop, take_left]

/-- **Quiet expressions are settled.**

**Proof sketch.** Induction on the expression, behind what has been read of it. The scanner finds
just its literals, since nothing between them holds a quote. -/
theorem Quiet.expressionSettled (h : m.Quiet e) : m.ExpressionSettled e := by
  have hscan : ∀ {t : Text}, m.Quiet t → ∀ u : Text, ∀ span ∈ scan stringAt? u.length 0 t,
      opensLookup m.callName ((u ++ t).take span.1) ∨ m.LiteralSettled (literalInside (u ++ t) span) := by
    intro t ht
    induction ht with
    | gap hg =>
      intro u span hspan
      rw [(Scanned.done (barren_stringAt? hg _ [])).scan_eq] at hspan
      exact absurd hspan not_mem_nil
    | @literal g inner rest q hg hq hinner hsettled hrest ih =>
      intro u span hspan
      have hfound : stringAt? (u.length + g.length) (q :: inner ++ [q] ++ rest) =
          some ((u.length + g.length, u.length + g.length + (inner.length + 2)),
            (q :: inner ++ [q]).length) := by
        rw [stringAt?, (IsStringLiteral.mk hq hinner).stringLength?_append]
        simp
      rw [scan_gap (barren_stringAt? hg _ _), scan_found (by simp) hfound] at hspan
      rcases mem_cons.mp hspan with rfl | hspan
      · rw [← append_assoc, ← length_append]
        refine hsettled.imp (fun hopens => ?_) fun hinside => ?_
        · rw [take_left]
          exact opensLookup_append hopens u
        · rwa [literalInside_eq]
      · have hrest := ih (u ++ g ++ (q :: inner ++ [q])) span
        simp only [length_append] at hrest hspan
        have hsame : u ++ (g ++ (q :: inner ++ [q] ++ rest)) = u ++ g ++ (q :: inner ++ [q]) ++ rest := by
          simp
        rw [hsame]
        exact hrest hspan
  intro span hspan
  rw [stringLiterals, stringLiteralsFrom_eq] at hspan
  exact hscan h [] span hspan

end Marking

/-! ## What is written -/

/-- A text that can stand beside literals: it has no quotes and, outside of attributes, neither an
opening bracket nor two closing braces in a row. -/
@[mk_iff]
structure Harmless (quote : Option QuoteMark) (t : Text) : Prop where
  unquoted : Unquoted t
  bracket : quote = none → .scalar '<' ∉ t
  braces : quote = none → Unpaired '\x7d' t

instance (quote : Option QuoteMark) (t : Text) : Decidable (Harmless quote t) :=
  decidable_of_iff _ (harmless_iff quote t).symm

/-- A part of an expression that can be written between the quotes of an attribute, or outside of any. -/
structure Marking.Writable (m : Marking) (quote : Option QuoteMark) (t : Text) : Prop where
  /-- Every quote in it belongs to a settled literal. -/
  quiet : m.Quiet t
  /-- The quote of the attribute does not stand in it. -/
  inside : ∀ q ∈ quote, q.point ∉ t
  bracket : quote = none → .scalar '<' ∉ t

/-- **An expression that can be written** in the place of another. -/
structure Marking.Fit (m : Marking) (quote : Option QuoteMark) (t : Text) : Prop
    extends m.Writable quote t where
  /-- It makes no pair of closing braces. -/
  braces : quote = none → Sealed '\x7d' t

/-- The name of a function that can be called in every place. -/
@[mk_iff]
structure IsCallName (t : Text) : Prop where
  unquoted : Unquoted t
  bracket : .scalar '<' ∉ t
  brace : .scalar '\x7d' ∉ t

instance (t : Text) : Decidable (IsCallName t) := decidable_of_iff _ (isCallName_iff t).symm

lemma Unquoted.notMem (h : Unquoted t) (q : QuoteMark) : q.point ∉ t := fun hmem => by
  have hfalse := h _ hmem
  rw [q.isQuote_point] at hfalse
  cases hfalse

namespace Marking.Writable

variable {m : Marking} {quote : Option QuoteMark} {t t' : Text}

/-- A text without quotes and brackets can be written. -/
lemma of_unquoted (h : Unquoted t) (hbracket : quote = none → .scalar '<' ∉ t) : m.Writable quote t :=
  ⟨.gap h, fun q _ => h.notMem q, hbracket⟩

lemma append (h : m.Writable quote t) (h' : m.Writable quote t') : m.Writable quote (t ++ t') where
  quiet := h.quiet.append h'.quiet
  inside q hq hmem := (mem_append.mp hmem).elim (h.inside q hq) (h'.inside q hq)
  bracket hnone hmem := (mem_append.mp hmem).elim (h.bracket hnone) (h'.bracket hnone)

end Marking.Writable

lemma unquoted_ofInt (n : Int) : Unquoted (Text.ofInt n) := by
  intro c hc
  rw [CodePoint.isQuote, Bool.or_eq_false_iff, beq_eq_false_iff_ne, beq_eq_false_iff_ne]
  constructor
  · rintro rfl
    exact notMem_ofInt (by decide) (by decide) n hc
  · rintro rfl
    exact notMem_ofInt (by decide) (by decide) n hc

namespace TemplateBlock

variable {b : TemplateBlock} {quote : Option QuoteMark}

/-- The comment behind a lookup is empty, or ends with its mark. -/
lemma comment_eq (o : Options) (t : Text) :
    o.comment t true = [] ∨ ∃ u : Text, o.comment t true = " " ++ u ++ "/" := by
  rw [Options.comment]
  split_ifs
  · exact .inl rfl
  · exact .inr ⟨"/* " ++ withoutCommentEnd t ++ " *", by
      simp only [blockComment, append_assoc]
      rfl⟩
  · rename_i h
    exact absurd (Bool.true_or _) h

/-- Arguments behind a key. -/
def passed (arguments : List Argument) : Text :=
  if arguments.isEmpty then [] else ", " ++ renderArguments arguments

/-- A character that no literal, tag or expression ends or begins with. -/
def IsInner (c : CodePoint) : Prop := c.isQuote = false ∧ c ≠ '<' ∧ c ≠ '\x7d'

/-- Arguments without quotes, opening brackets and closing braces can be passed in every place. -/
lemma harmless_passed (h : ∀ a ∈ arguments, ∀ c ∈ a.name ++ a.expression, IsInner c) :
    Harmless none (passed arguments) ∧ (passed arguments).head? ≠ some '\x7d' := by
  rw [passed]
  split_ifs with hnil
  · exact ⟨⟨by decide, by simp, fun _ => .nil⟩, by simp⟩
  · obtain ⟨inner, heq, hinner⟩ := exists_renderArguments arguments
    have hshape : ", " ++ renderArguments arguments = ", \x7b " ++ inner ++ " \x7d" := by
      rw [heq]
      simp only [← append_assoc]
      rfl
    have hchars : ∀ c ∈ inner, IsInner c := fun c hc => by
      rcases hinner c hc with hsign | ⟨a, ha, hname⟩
      · obtain ⟨d, hd, heq⟩ := any_eq_true.mp hsign
        rw [eq_of_beq heq]
        exact (by decide : ∀ c ∈ Text.ofString ", :", c.isQuote = false ∧ c ≠ '<' ∧
          c ≠ '\x7d') _ (mem_map_of_mem hd)
      · exact h a ha c (mem_append.mpr hname)
    rw [hshape]
    refine ⟨⟨?_, fun _ hmem => ?_, fun _ => ?_⟩, by simp [Text.ofString]⟩
    · exact (Unquoted.append (by decide) fun c hc => (hchars c hc).1).append (by decide)
    · rw [mem_append, mem_append] at hmem
      rcases hmem with (hmem | hmem) | hmem
      · exact absurd hmem (by decide)
      · exact (hchars _ hmem).2.1 rfl
      · exact absurd hmem (by decide)
    · have hfirst : .scalar '\x7d' ∉ ", \x7b " ++ inner := fun hmem => by
        rcases mem_append.mp hmem with hmem | hmem
        · exact absurd hmem (by decide)
        · exact (hchars _ hmem).2.2 rfl
      exact Unpaired.notMem_append hfirst (by unfold Unpaired; decide)

/-- A lookup can be written. -/
lemma fit_lookup (hcall : IsCallName b.callName) {key : Key} {payload : Text}
    (hbracket : quote = none → .scalar '<' ∉ key.text) (hbraces : quote = none → Unpaired '\x7d' key.text)
    (hcomment : Harmless quote (b.extractor.options.comment (canonicalize payload) true))
    (harguments : ∀ a ∈ arguments, ∀ c ∈ a.name ++ a.expression, IsInner c) :
    b.marking.Fit quote (b.lookup quote key payload arguments) := by
  obtain ⟨hpassed, hhead⟩ := harmless_passed harguments
  set comment := b.extractor.options.comment (canonicalize payload) true with hcommentEq
  have hshape : b.lookup quote key payload arguments =
      b.callName ++ "(" ++ (key.attributeLiteral quote ++ (passed arguments ++ ")" ++ comment)) := by
    simp only [lookup, passed, ← hcommentEq, append_assoc]
  have hbehind : Unquoted (passed arguments ++ ")" ++ comment) :=
    (hpassed.unquoted.append (by decide)).append hcomment.unquoted
  have hbefore : Unquoted (b.callName ++ "(") := hcall.unquoted.append (by decide)
  rw [hshape]
  refine ⟨⟨?_, fun q hq => ?_, fun hnone => ?_⟩, fun hnone => ?_⟩
  · cases key with
    | number n =>
      have hnumber : Unquoted (Text.ofInt n) := unquoted_ofInt n
      exact .gap (hbefore.append (hnumber.append hbehind))
    | name t =>
      rw [Key.attributeLiteral_name]
      exact .literal hbefore (keyQuote quote).isQuote_point (passable_flatMap_keyPoint quote t)
        (.inl (Marking.opensLookup_call _)) (.gap hbehind)
  · obtain rfl := Option.mem_def.mp hq
    intro hmem
    rcases mem_append.mp hmem with hmem | hmem
    · exact hbefore.notMem q hmem
    rcases mem_append.mp hmem with hmem | hmem
    · exact key.notMem_attributeLiteral q hmem
    · exact hbehind.notMem q hmem
  · simp only [mem_append, not_or]
    refine ⟨⟨hcall.bracket, by decide⟩, fun hmem => hbracket hnone ?_, ⟨hpassed.bracket rfl, by decide⟩,
      hcomment.bracket hnone⟩
    exact Key.mem_text_of_mem_attributeLiteral (by decide) hmem
  · have hliteral := Key.unpaired_attributeLiteral quote (d := '\x7d') (by decide) (hbraces hnone)
    have hcall' : .scalar '\x7d' ∉ b.callName ++ "(" := by
      rw [mem_append, not_or]
      exact ⟨hcall.brace, by decide⟩
    refine (Sealed.iff_of_ne_nil (by simp [Text.ofString])).mpr ⟨?_, fun hfirst => ?_, ?_⟩
    · have hhead' : (comment).head? ≠ some '\x7d' := by
        rcases comment_eq b.extractor.options (canonicalize payload) with hnil | ⟨u, hu⟩
        · rw [hcommentEq, hnil]
          simp
        · rw [hcommentEq, hu]
          simp [Text.ofString]
      refine Unpaired.notMem_append hcall' (hliteral.append_of_head ?_ ?_)
      · exact ((hpassed.braces rfl).append_notMem (by decide)).append_of_head (hcomment.braces hnone)
          hhead'
      · cases hcase : passed arguments with
        | nil => simp [Text.ofString]
        | cons c rest =>
          rw [hcase] at hhead
          exact hhead
    · rw [head?_append_of_ne_nil _ (by simp [Text.ofString])] at hfirst
      exact hcall' (mem_of_head? hfirst)
    · obtain ⟨u, c, hu, hc⟩ : ∃ (u : Text) (c : CodePoint),
          passed arguments ++ ")" ++ comment = u ++ [c] ∧ c ≠ '\x7d' := by
        rcases comment_eq b.extractor.options (canonicalize payload) with hnil | ⟨u, hu⟩
        · exact ⟨passed arguments, ')', by rw [hcommentEq, hnil, append_nil]; rfl,
            by decide⟩
        · exact ⟨passed arguments ++ ")" ++ (" " ++ u), '/', by
            rw [hcommentEq, hu]
            simp only [append_assoc]
            rfl, by decide⟩
      rw [hu, ← append_assoc, ← append_assoc, getLast?_concat]
      simpa using hc

/-- What is kept of a text between phrases. -/
def keptBetween (segment : Nat → Nat → Text) (length cursor : Nat) : List Phrase → List Text
  | [] => [segment cursor length]
  | p :: rest => segment cursor p.start :: keptBetween segment length p.stop rest

/-- What can stand between lookups in a template literal: no quotes and, outside of attributes, neither
opening brackets nor closing braces. -/
def IsKept (quote : Option QuoteMark) (t : Text) : Prop :=
  ∀ c ∈ t, c.isQuote = false ∧ (quote = none → c ≠ '<' ∧ c ≠ '\x7d')

instance (quote : Option QuoteMark) (t : Text) : Decidable (IsKept quote t) :=
  inferInstanceAs (Decidable (∀ c ∈ t, _))

/-- What is kept can be written. -/
lemma IsKept.writable (h : IsKept quote t) (m : Marking) : m.Writable quote t :=
  .of_unquoted (fun c hc => (h c hc).1) fun hnone hmem => ((h _ hmem).2 hnone).1 rfl

lemma IsKept.notMem (h : IsKept quote t) (hnone : quote = none) : .scalar '\x7d' ∉ t :=
  fun hmem => ((h _ hmem).2 hnone).2 rfl

/-- The inside of a template literal: it makes no pair of closing braces with what stands before it. -/
structure FitInside (m : Marking) (quote : Option QuoteMark) (t : Text) : Prop
    extends m.Writable quote t where
  /-- There are no two closing braces in a row. -/
  braces : quote = none → Unpaired '\x7d' ('\x7d' :: t)

lemma unpaired_cons (h : .scalar '\x7d' ∉ t) : Unpaired (.scalar '\x7d') (.scalar '\x7d' :: t) :=
  Unpaired.append_notMem (t := ['\x7d']) (List.IsChain.singleton _) h

/-- A lookup between texts that are kept. -/
lemma FitInside.lookup (hu : IsKept quote u) (he : m.Fit quote e)
    (hr : FitInside m quote r) : FitInside m quote (u ++ substitution e ++ r) := by
  have hshape : u ++ substitution e ++ r = u ++ "$\x7b" ++ (e ++ ("\x7d" ++ r)) := by
    simp only [substitution, append_assoc]
  rw [hshape]
  have hbefore : m.Writable quote (u ++ "$\x7b") :=
    (hu.writable m).append (.of_unquoted (by decide) fun _ => by decide)
  have hbehind : m.Writable quote ("\x7d" ++ r) :=
    Marking.Writable.append (.of_unquoted (by decide) fun _ => by decide) hr.toWritable
  refine ⟨hbefore.append (he.toWritable.append hbehind), fun hnone => ?_⟩
  have hbrace : .scalar '\x7d' ∉ u ++ "$\x7b" := by
    rw [mem_append, not_or]
    exact ⟨hu.notMem hnone, by decide⟩
  exact (he.braces hnone).unpaired_append (unpaired_cons hbrace) (hr.braces hnone)

/-- A template literal can be written if its lookups can, and what is kept between them can stand
there. -/
lemma fit_backticked {segment : Nat → Nat → Text} {lookup : Phrase → Key → Text} {length : Nat}
    (hkept : ∀ u ∈ keptBetween segment length 0 (resolved.map Prod.fst), IsKept quote u)
    (hlookup : ∀ x ∈ resolved, m.Fit quote (lookup x.1 x.2)) :
    m.Fit quote
      (backticked (interpolate segment (fun p key => substitution (lookup p key)) length 0 resolved)) := by
  have hinside : ∀ cursor, (∀ u ∈ keptBetween segment length cursor (resolved.map Prod.fst),
      IsKept quote u) → FitInside m quote
        (interpolate segment (fun p key => substitution (lookup p key)) length cursor resolved) := by
    clear hkept
    induction resolved with
    | nil =>
      intro cursor hkept
      have hlast := hkept _ mem_cons_self
      exact ⟨hlast.writable m, fun hnone => unpaired_cons (hlast.notMem hnone)⟩
    | cons x resolved ih =>
      intro cursor hkept
      obtain ⟨hhere, hkept⟩ := forall_mem_cons.mp hkept
      obtain ⟨hx, hlookup⟩ := forall_mem_cons.mp hlookup
      exact .lookup hhere hx (ih hlookup x.1.stop hkept)
  have h := hinside 0 hkept
  have hback : m.Writable quote "`" := .of_unquoted (by decide) fun _ => by decide
  refine ⟨(hback.append h.toWritable).append hback, fun hnone => ?_⟩
  have hinner : Unpaired '\x7d' (interpolate segment _ length 0 resolved) :=
    (isChain_cons.mp (h.braces hnone)).2
  refine (Sealed.iff_of_ne_nil (by simp [backticked, Text.ofString])).mpr
    ⟨(Unpaired.notMem_append (by decide) hinner).append_notMem (by decide),
      by simp [backticked, Text.ofString], ?_⟩
  rw [backticked, show ("`" : Text) = [.scalar '`'] from rfl, getLast?_concat]
  decide

/-- What is kept of a literal between phrases. -/
def keptOf (l : Literal) (phrases : List Phrase) : List Text :=
  match l with
  | .quoted raw decoded =>
    keptBetween (fun start stop => escapeSpelled (spelledSegment raw decoded start stop))
      decoded.length 0 phrases
  | l => keptBetween (fun start stop => escapePlain (l.content.slice start stop)) l.content.length 0
      phrases

/-- What takes the place of phrases in a literal can be written. -/
lemma fit_callOrTemplate {l : Literal} {phrases : List Phrase}
    (hkept : ∀ u ∈ keptOf l (resolved.map Prod.fst), IsKept quote u)
    (hlookup : ∀ x ∈ resolved, b.marking.Fit quote (b.lookup quote x.2 x.1.payload [])) :
    b.marking.Fit quote (b.callOrTemplate quote l phrases resolved) := by
  rw [callOrTemplate.eq_def]
  split
  · exact hlookup _ mem_cons_self
  · exact fit_backticked hkept hlookup
  · rename_i _ l _ _ _ hquoted _
    cases l with
    | quoted raw decoded => exact absurd rfl (hquoted raw decoded)
    | value raw | markup raw | template text => exact fit_backticked hkept hlookup

end TemplateBlock

end Phrasebook
