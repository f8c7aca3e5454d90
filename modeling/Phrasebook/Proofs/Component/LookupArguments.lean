import Phrasebook.Proofs.Component.Quiet

/-!
# Literals that are left alone

A string literal in an expression is left alone if it is the argument of a lookup. That is decided by
what stands before it: one of the two names of lookups and an opening parenthesis.

## Main results

* `TemplateBlock.splices_spare_arguments` — the name may be the end of a longer one, so the arguments of
  some other functions are left alone too.
-/

namespace Phrasebook

open List

variable {before : Text} {c : CodePoint}

/-- White space at the end of a text is dropped, up to the last character that is none. -/
lemma dropWhile_isBlank_reverse {u blanks : Text} (hc : c.isBlank = false) (hblanks : ∀ c ∈ blanks, c.isBlank) :
    (u ++ [c] ++ blanks).reverse.dropWhile CodePoint.isBlank = (u ++ [c]).reverse := by
  have hall : ∀ c ∈ blanks.reverse, c.isBlank := fun c hc => hblanks c (mem_reverse.mp hc)
  rw [reverse_append, dropWhile_append_of_pos hall, reverse_append, reverse_singleton,
    singleton_append, dropWhile_cons_of_neg (by simp [hc])]

/-- **What a text ends with, apart from white space.** -/
theorem endsWith_trimRight_iff {t ending : Text} (hc : c.isBlank = false) :
    t.trimRight.endsWith (ending ++ [c]) ↔
      ∃ head blanks : Text, (∀ c ∈ blanks, c.isBlank) ∧ t = head ++ (ending ++ [c]) ++ blanks := by
  rw [Marking.endsWith_trimRight, isPrefixOf_iff_prefix]
  constructor
  · rintro ⟨behind, hbehind⟩
    refine ⟨behind.reverse, (t.reverse.takeWhile CodePoint.isBlank).reverse, fun c hc => ?_, ?_⟩
    · exact mem_takeWhile_imp (mem_reverse.mp hc)
    · apply reverse_injective
      rw [reverse_append, reverse_append, reverse_reverse, reverse_reverse, hbehind,
        takeWhile_append_dropWhile]
  · rintro ⟨head, blanks, hblanks, rfl⟩
    rw [← append_assoc head, dropWhile_isBlank_reverse hc hblanks, append_assoc]
    exact reverse_prefix.mpr (suffix_append _ _)

/-- `OpensCall name head before`: a text ends with a name and an opening parenthesis, with white space behind
it; `head` stands before the name. -/
def OpensCall (name head before : Text) : Prop :=
  ∃ blanks : Text, (∀ c ∈ blanks, c.isBlank = true) ∧ before = head ++ (name ++ "(") ++ blanks

/-- What stands before the name is told by the text. -/
lemma OpensCall.head_eq {name head head' : Text} (h : OpensCall name head before)
    (h' : OpensCall name head' before) : head = head' := by
  obtain ⟨blanks, hblanks, rfl⟩ := h
  obtain ⟨blanks', hblanks', heq⟩ := h'
  have hparen : (CodePoint.scalar '(').isBlank = false := by decide
  have hends := congrArg (fun t : Text => t.reverse.dropWhile CodePoint.isBlank) heq
  have hopening : ("(" : Text) = [.scalar '('] := rfl
  simp only [hopening, ← append_assoc] at hends
  rw [dropWhile_isBlank_reverse hparen hblanks, dropWhile_isBlank_reverse hparen hblanks',
    reverse_inj] at hends
  exact append_cancel_right (append_cancel_right hends)

/-- A text whose last character belongs to a name, so that what follows it goes on with that name. -/
def EndsInName (t : Text) : Prop := ∃ c ∈ t.getLast?, c.isIdentifierPart = true

namespace TemplateBlock

variable {b : TemplateBlock}

/-- The names of lookups. -/
def lookupNames (b : TemplateBlock) : List Text := [b.callName, globalCallName]

/-- **What stands before the argument of a lookup**: its name, which does not go on with another, and a
parenthesis. -/
def IsLookupArgument (b : TemplateBlock) (before : Text) : Prop :=
  ∃ name ∈ b.lookupNames, ∃ head, OpensCall name head before ∧ ¬ EndsInName head

/-- What stands before the argument of a function whose name ends with that of a lookup. -/
def IsTailArgument (b : TemplateBlock) (before : Text) : Prop :=
  ∃ name ∈ b.lookupNames, ∃ head, OpensCall name head before ∧ EndsInName head

/-- **Which literals are left alone**: the arguments of lookups, and those of functions with a longer
name. -/
theorem opensLookup_iff :
    opensLookup b.callName before ↔ b.IsLookupArgument before ∨ b.IsTailArgument before := by
  have hname : ∀ name : Text, before.trimRight.endsWith (name ++ "(") ↔
      ∃ head, OpensCall name head before := fun name => endsWith_trimRight_iff (by decide)
  have hnames : opensLookup b.callName before ↔ ∃ name ∈ b.lookupNames, ∃ head, OpensCall name head before := by
    simp only [opensLookup, Bool.or_eq_true, hname, lookupNames, mem_cons, not_mem_nil, or_false,
      exists_eq_or_imp, exists_eq_left]
  rw [hnames]
  constructor
  · rintro ⟨name, hname, head, hopens⟩
    by_cases htail : EndsInName head
    · exact .inr ⟨name, hname, head, hopens, htail⟩
    · exact .inl ⟨name, hname, head, hopens, htail⟩
  · rintro (⟨name, hname, head, hopens, -⟩ | ⟨name, hname, head, hopens, -⟩)
    · exact ⟨name, hname, head, hopens⟩
    · exact ⟨name, hname, head, hopens⟩

/-- **Which string literals are replaced.** If the conversion of a template does not fail, then every
string literal of an expression that marks a phrase is replaced as a whole, by a text in which its phrases
have got keys, or nothing in it is replaced. It is replaced exactly if it is not the argument of a lookup,
nor of a function whose name merely ends with the name of one. -/
theorem splices_spare_arguments (b : TemplateBlock) (l : Ledger) :
    (∃ failure l', b.splices.run.run l = (.error failure, l') ∧ b.Hindrance failure) ∨
      ∃ out l', Runs b.splices l out l' ∧
        ∀ quote start stop span decoded, (quote, start, stop) ∈ b.expressions →
          span ∈ stringLiterals (b.content.slice start stop) →
          decodeLiteral (literalInside (b.content.slice start stop) span) = .ok decoded →
          b.extractor.delimiter.marked decoded.text ≠ [] →
          let e := b.content.slice start stop
          let replaced : Prop := ∃ resolved,
            resolved.map Prod.fst = b.extractor.delimiter.marked decoded.text ∧
            b.spliceOfLiteral quote start e span decoded resolved ∈ out
          (replaced ∨ ∀ s ∈ out, s.stop ≤ start + span.1 ∨ start + span.2 ≤ s.start) ∧
            (replaced ↔ ¬ b.IsLookupArgument (e.take span.1) ∧ ¬ b.IsTailArgument (e.take span.1)) := by
  rcases hrun : b.splices.run.run l with ⟨failure | out, l'⟩
  · exact .inl ⟨failure, l', rfl, failsBy_splices b l failure l' hrun⟩
  · refine .inr ⟨out, l', hrun, fun quote start stop span decoded hexpression hspan hdecode hmarked => ?_⟩
    intro e replaced
    have hlt := (follow_stringLiterals e).2 span hspan
    obtain ⟨m, here, m', hrun', hsubset, hapart⟩ := isolates_literal hexpression hspan l out l' hrun
    rw [← not_or, ← opensLookup_iff, Bool.not_eq_true]
    rcases runs_literalSplice hrun' with
      ⟨hopens, rfl, -⟩ | ⟨hopens, -, decoded', resolved, hdecode', hassigned, rfl⟩
    · have hspared : ∀ s ∈ out, s.stop ≤ start + span.1 ∨ start + span.2 ≤ s.start := fun s hs =>
        (hapart s hs).resolve_left not_mem_nil
      refine ⟨.inr hspared, iff_of_false ?_ (ne_of_eq_of_ne hopens (by decide))⟩
      rintro ⟨resolved, -, hmem⟩
      have := hspared _ hmem
      simp only [spliceOfLiteral] at this
      omega
    · obtain rfl := Except.ok.inj (hdecode.symm.trans hdecode')
      have hphrases : resolved.map Prod.fst = b.extractor.delimiter.marked decoded.text :=
        hassigned.phrases_eq
      have hne : resolved ≠ [] := by
        rintro rfl
        exact hmarked hphrases.symm
      rw [if_neg (by simpa using hne)] at hsubset
      have hreplaced : replaced := ⟨resolved, hphrases, hsubset mem_cons_self⟩
      exact ⟨.inl hreplaced, iff_of_true hreplaced hopens⟩

/-- A literal that is the argument of a function with a longer name marks a phrase, but is left alone. -/
theorem splices_spare_arguments_longer_name :
    let delimiter := (Delimiter.ofText "(a)").toOption.get (by with_unfolding_all rfl)
    let b : TemplateBlock :=
      ⟨⟨[], "f.vue", {}, delimiter, []⟩, 0, "\x7b\x7b my$t('a') \x7d\x7d", "$t"⟩
    ¬ b.IsLookupArgument " my$t(" ∧ b.IsTailArgument " my$t(" ∧
      ∃ out l', Runs b.splices {} out l' ∧ ∀ s ∈ out, s.stop ≤ 8 ∨ 11 ≤ s.start := by
  intro delimiter b
  have hhead : OpensCall "$t" " my" " my$t(" := ⟨[], by simp, by decide⟩
  have hends : EndsInName " my" := ⟨'y', by decide, by decide +kernel⟩
  have htail : b.IsTailArgument " my$t(" := ⟨"$t", by decide, " my", hhead, hends⟩
  refine ⟨?_, htail, ?_⟩
  · rintro ⟨name, hname, head, hopens, hboundary⟩
    obtain rfl : name = "$t" := by simpa [lookupNames, globalCallName, b] using hname
    exact hboundary (hopens.head_eq hhead ▸ hends)
  · have hsome : (b.splices.run.run {}).1.toOption.isSome = true := by decide +kernel
    rcases splices_spare_arguments b {} with ⟨failure, l', hrun, -⟩ | ⟨out, l', hrun, hliterals⟩
    · rw [hrun] at hsome
      cases hsome
    · obtain ⟨hwhole, hiff⟩ := hliterals none 2 13 (6, 9) [('a', 0)] (by decide +kernel)
        (by decide +kernel) (by decide +kernel) (by decide +kernel)
      exact ⟨out, l', hrun, hwhole.resolve_left fun hreplaced => (hiff.mp hreplaced).2 htail⟩

end TemplateBlock

end Phrasebook
