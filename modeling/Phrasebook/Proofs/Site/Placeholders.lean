import Phrasebook.Proofs.Message.Canonical
import Phrasebook.Proofs.Message.KeyLiteral
import Phrasebook.Proofs.Pattern.Underscores
import Phrasebook.Proofs.Site.Layout

/-!
# Placeholders and arguments agree

The message of a phrase in a template literal has numbered placeholders, which are found by reading the
phrase with its markers as a text; the call for it has numbered arguments, which are found by the offsets of
the markers. A template literal is taken as the grammar has it: an opening brace behind a dollar belongs to
a substitution, unless an odd run of backslashes stands before it.

## Main results

* `TemplateText.placeholders_agree` — placeholders and arguments number the same holes in the same way.
-/

namespace Phrasebook

open List

variable {items u : List TemplateItem} {n : Nat} {t : Text}

open TemplateItem

namespace TemplateItem

/-! ## Backslashes -/

/-- How many backslashes stand at the end of items. -/
def escapesBefore (items : List TemplateItem) : Nat :=
  (items.reverse.takeWhile fun item => item = point '\\').length

/-- **What the grammar gives**: a dollar and an opening brace in the text of a template literal stand behind
an odd run of backslashes, and a substitution behind an even one. -/
def WellEscaped (items : List TemplateItem) : Prop :=
  ∀ i < items.length,
    ((items.drop i).take 2 = [point '$', point '\x7b'] →
      escapesBefore (items.take i) % 2 = 1) ∧
    (((items.drop i).head?.bind span?).isSome → escapesBefore (items.take i) % 2 = 0)

instance (items : List TemplateItem) : Decidable (WellEscaped items) :=
  inferInstanceAs (Decidable (∀ i < items.length, _ ∧ _))

/-- Backslashes do not reach back over items that do not end with one. -/
lemma escapesBefore_append {v : List TemplateItem} (hu : escapesBefore u = 0) :
    escapesBefore (u ++ v) = escapesBefore v := by
  have hnil : u.reverse.takeWhile (fun item => item = point '\\') = [] :=
    length_eq_zero_iff.mp hu
  rw [escapesBefore, escapesBefore, reverse_append, takeWhile_append, hnil]
  split_ifs with hall
  · rw [append_nil, hall]
  · rfl

lemma escapesBefore_replicate (k : Nat) : escapesBefore (List.replicate k (point '\\')) = k := by
  rw [escapesBefore, reverse_replicate, takeWhile_replicate]
  simp

lemma escapesBefore_concat {item : TemplateItem}
    (h : item ≠ point '\\') : escapesBefore (u ++ [item]) = 0 := by
  rw [escapesBefore, reverse_append, reverse_singleton, singleton_append,
    takeWhile_cons_of_neg (by simpa using h)]
  rfl

namespace WellEscaped

variable {u v : List TemplateItem}

/-- An opening that is text is escaped. -/
lemma odd (h : WellEscaped (u ++ point '$' :: point '\x7b' :: v)) : escapesBefore u % 2 = 1 := by
  simpa using (h u.length (by simp)).1

/-- A hole is not escaped. -/
lemma even {start stop : Nat} (h : WellEscaped (u ++ hole start stop :: v)) : escapesBefore u % 2 = 0 := by
  simpa [span?] using (h u.length (by simp)).2

lemma left (h : WellEscaped (u ++ v)) : WellEscaped u := by
  intro i hi
  obtain ⟨htext, hhole⟩ := h i (by rw [length_append]; omega)
  rw [take_append_of_le_length hi.le] at htext hhole
  rw [drop_append_of_le_length hi.le] at htext hhole
  refine ⟨fun htwo => htext ?_, fun hsome => hhole ?_⟩
  · have hlong : 2 ≤ (u.drop i).length := by
      have hlength := congrArg List.length htwo
      rw [length_take] at hlength
      simp only [length_cons, length_nil] at hlength
      omega
    rw [take_append_of_le_length hlong, htwo]
  · cases hdrop : u.drop i with
    | nil => simp [hdrop] at hsome
    | cons item rest => simpa [hdrop] using hsome

lemma right (h : WellEscaped (u ++ v)) (hu : escapesBefore u = 0) : WellEscaped v := by
  intro i hi
  have hnext := h (u.length + i) (by rw [length_append]; omega)
  rwa [take_length_add_append, drop_length_add_append, escapesBefore_append hu] at hnext

end WellEscaped

/-! ## Canonical texts -/

lemma ofNat_ne_nil (n : Nat) : Text.ofNat n ≠ [] := by
  simp [Text.ofNat, Nat.toDigits_ne_nil]

/-- A marker behind an even run of backslashes becomes a placeholder. -/
lemma canonicalFrom_marker {k : Nat} (heven : k % 2 = 0) (n count : Nat) (rest : Text) :
    canonicalFrom false 0 count (escapes k ++ (TemplateText.markerText n ++ rest)) =
      escapes k ++ (placeholder (count + 1) ++ canonicalFrom false 0 (count + 1) rest) := by
  have hbrace : ∀ c ∈ Text.ofNat n, c ≠ '\x7d' := by
    rintro c hc rfl
    exact notMem_ofInt (by decide) (by decide) (.ofNat n) hc
  rw [TemplateText.markerText, append_assoc, append_assoc]
  exact canonicalFrom_live heven (ofNat_ne_nil n) hbrace rest

lemma exists_escapes (items : List TemplateItem) : ∃ k rest,
    items = List.replicate k (point '\\') ++ rest ∧ rest.head? ≠ some (point '\\') := by
  induction items with
  | nil => exact ⟨0, [], rfl, by simp⟩
  | cons item items ih =>
    by_cases hitem : item = point '\\'
    · obtain ⟨k, rest, rfl, hrest⟩ := ih
      exact ⟨k + 1, rest, by rw [hitem, replicate_succ, cons_append], hrest⟩
    · exact ⟨0, item :: items, rfl, by simpa using hitem⟩

lemma spell_escapes (n k : Nat) (rest : List TemplateItem) :
    spell n (List.replicate k (point '\\') ++ rest) = escapes k ++ spell n rest := by
  have hpoints : List.replicate k (point '\\') = points (escapes k) := by
    rw [points, escapes, map_replicate]
  rw [hpoints, spell_points_append]

lemma message_escapes (n k : Nat) (rest : List TemplateItem) :
    message n (List.replicate k (point '\\') ++ rest) = escapes k ++ message n rest := by
  induction k with
  | zero => rfl
  | succ k ih => rw [replicate_succ, cons_append, message, ih, escapes_succ, cons_append]

/-- Items that do not begin with an opening brace are not spelled so. -/
lemma head?_spell_ne (h : items.head? ≠ some (point '\x7b')) :
    (spell n items).head? ≠ some '\x7b' := by
  cases items with
  | nil => simp [spell]
  | cons item items =>
    cases item with
    | point c => simpa [spell] using h
    | hole start stop => simp [spell, TemplateText.markerText, Text.ofString]

/-- **The canonical text of items with markers** has a placeholder for each marker, and nothing else is
rewritten.

**Proof sketch.** Induction on the number of items. They begin with a run of backslashes. If a hole comes
next, the run is even, and the hole becomes a placeholder; if a dollar and an opening brace come next, the run
is odd; and anything else is no expression. -/
theorem canonicalFrom_spell (h : WellEscaped items) (n count : Nat) :
    canonicalFrom false 0 count (spell n items) = message (count + 1) items := by
  induction hlength : items.length using Nat.strong_induction_on generalizing items n count with
  | _ length ih =>
    subst hlength
    obtain ⟨k, rest, rfl, hrest⟩ := exists_escapes items
    rw [spell_escapes, message_escapes]
    cases rest with
    | nil => rw [spell, message, append_nil, canonicalFrom_escapes]
    | cons item rest =>
      -- what follows the item is shorter, and well escaped as the item is no backslash
      have hitem : item ≠ point '\\' := by simpa using hrest
      have hnext : WellEscaped rest := by
        have hsplit := h
        rw [← singleton_append, ← append_assoc] at hsplit
        exact hsplit.right (escapesBefore_concat hitem)
      have hih := fun n count => ih rest.length (by simp; omega) hnext n count rfl
      cases item with
      | hole start stop =>
        have heven : k % 2 = 0 := by simpa only [escapesBefore_replicate] using h.even
        rw [spell, message, canonicalFrom_marker heven, hih]
      | point c =>
        have hc : c ≠ '\\' := fun heq => hitem (heq ▸ rfl)
        have hcopied : k % 2 = 1 ∨ embedded? (c :: spell n rest) = none := by
          by_cases hlive : c = '$' ∧ rest.head? = some (point '\x7b')
          · obtain ⟨rfl, hhead⟩ := hlive
            obtain ⟨after, rfl⟩ := head?_eq_some_iff.mp hhead
            exact .inl (by simpa only [escapesBefore_replicate] using h.odd)
          · refine .inr (embedded?_eq_none fun hdollar => head?_spell_ne fun hhead => ?_)
            exact hlive ⟨hdollar, hhead⟩
        rw [spell, message, canonicalFrom_run hc hcopied, hih]

/-! ## Underscores -/

/-- A marker neither begins nor ends with an underscore, so an underscore in front is an item. -/
lemma eq_cons_of_spell (h : spell n items = .scalar '_' :: t) :
    ∃ rest, items = point '_' :: rest ∧ spell n rest = t := by
  cases items with
  | nil => cases h
  | cons item rest =>
    cases item with
    | point c =>
      obtain ⟨rfl, hrest⟩ := List.cons.inj h
      exact ⟨rest, rfl, hrest⟩
    | hole start stop => simp [spell, TemplateText.markerText, Text.ofString] at h

/-- A text that ends in an underscore has this as its last item. -/
lemma eq_concat_of_spell (h : spell n items = t ++ [.scalar '_']) :
    ∃ front, items = front ++ [point (.scalar '_')] ∧ spell n front = t := by
  rcases eq_nil_or_concat items with rfl | ⟨front, item, rfl⟩
  · simp [spell] at h
  · rw [concat_eq_append, spell_append] at h
    cases item with
    | point c =>
      obtain ⟨hfront, hlast⟩ := append_inj' h rfl
      obtain ⟨rfl, -⟩ := List.cons.inj hlast
      exact ⟨front, concat_eq_append, hfront⟩
    | hole start stop =>
      rw [spell, spell, append_nil, TemplateText.markerText, ← append_assoc] at h
      obtain ⟨-, hlast⟩ := append_inj' h rfl
      exact absurd hlast (by decide)

/-- Three underscores on either side are items, with others between them. -/
lemma eq_underscores_of_spell (h : spell n items = "___" ++ (t ++ "___")) :
    ∃ run, items = points "___" ++ (run ++ points "___") ∧ spell n run = t := by
  have hthree : ("___" : Text) = ['_', '_', '_'] := by decide
  rw [hthree] at h
  obtain ⟨items₁, rfl, h₁⟩ := eq_cons_of_spell h
  obtain ⟨items₂, rfl, h₂⟩ := eq_cons_of_spell h₁
  obtain ⟨items₃, rfl, h₃⟩ := eq_cons_of_spell h₂
  have hconcat : spell n items₃ = t ++ [.scalar '_'] ++ [.scalar '_'] ++ [.scalar '_'] :=
    h₃.trans (by simp)
  obtain ⟨items₄, rfl, h₄⟩ := eq_concat_of_spell hconcat
  obtain ⟨items₅, rfl, h₅⟩ := eq_concat_of_spell h₄
  obtain ⟨run, rfl, h₆⟩ := eq_concat_of_spell h₅
  exact ⟨run, by rw [hthree]; simp [points], h₆⟩

end TemplateItem

namespace TemplateText

/-- **Placeholders and arguments agree.** Take a template literal as the grammar has it and a phrase of the
default delimiter in it. The phrase is a run of its items between underscores, and the payload is that run.
The canonical text of the payload, by which the key is chosen as well, has the characters of the run as they
are and a placeholder for each hole, numbered in order; and the call for the phrase has arguments with these
numbers, each bound to the expression in its hole. -/
theorem placeholders_agree {t : Text} {n : Node} {text : TemplateText} {d : Delimiter} {p : Phrase}
    (htext : ofNode? t n = some text) (hescaped : WellEscaped (layout t n))
    (hd : Delimiter.ofText Delimiter.defaultSource = .ok d) (hp : p ∈ text.phrases d) :
    ∃ before run after,
      layout t n = before ++ (points "___" ++ (run ++ points "___") ++ after) ∧
      p.start = (spell 0 before).length ∧ p.full = "___" ++ (p.payload ++ "___") ∧
      p.payload = spell (holes before).length run ∧
      (d.phrase? p.full).map Phrase.payload = some p.payload ∧
      canonicalize p.payload = message 1 run ∧
      ∀ (s : TemplateSite), s.text = text → ∀ render, s.arguments render p = TemplateItem.arguments render run ∧
        ∀ (o : Options), o.writeCall = none → ∀ blockOnly key, s.lookup o render blockOnly p key =
          callWith s.callName key (TemplateItem.arguments render run) ++ o.comment (message 1 run) blockOnly := by
  have hlays := lays_ofNode? htext
  obtain ⟨hphrase, hcut⟩ := mem_filter.mp hp
  obtain ⟨⟨u, v, hcombined, hstart, hstop⟩, hfull, hagain⟩ := Delimiter.full_of_mem_phrases hd hphrase
  -- the phrase is a run of items
  have hlt : p.start < p.stop := by
    have hpos : 0 < p.full.length := by
      rw [hfull, length_append]
      exact Nat.lt_of_lt_of_le (by decide : 0 < ("___" : Text).length) (Nat.le_add_right _ _)
    omega
  have hle : p.stop ≤ text.combined.length := by
    rw [hcombined, length_append, length_append]
    omega
  have huncut : ∀ m ∈ text.markers, m.cutBy p = false := by simpa using hcut
  obtain ⟨whole, hrun⟩ := hlays.exists_occupies hlt hle huncut
  obtain ⟨before, after, hitems, hbefore, hwhole⟩ := id hrun
  -- it is spelled as the phrase, so underscores stand on either side
  have hspell : spell (holes before).length whole = "___" ++ (p.payload ++ "___") := by
    have hsplit : u ++ (p.full ++ v) = spell 0 before ++ (spell (holes before).length whole ++
        spell ((holes before).length + (holes whole).length) after) := by
      rw [← hcombined, hlays.combined, hitems, spell_append, spell_append, Nat.zero_add]
    obtain ⟨-, hrest⟩ := append_inj hsplit (by omega)
    obtain ⟨hsame, -⟩ := append_inj hrest (by omega)
    rw [← hsame, hfull]
  obtain ⟨run, rfl, hpayload⟩ := eq_underscores_of_spell hspell
  have hwell : WellEscaped run := by
    rw [hitems, ← append_assoc] at hescaped
    have hfront : escapesBefore (before ++ points "___") = 0 := by
      have hlast : points "___" = [point '_', point '_'] ++ [point '_'] := rfl
      rw [hlast, ← append_assoc]
      exact escapesBefore_concat (by decide)
    rw [← append_assoc] at hescaped
    exact (hescaped.left.right hfront).left
  have hcanonical : canonicalize p.payload = message 1 run := by
    rw [canonicalize, ← hpayload, canonicalFrom_spell hwell]
  refine ⟨before, run, after, hitems, hbefore, hfull, hpayload.symm, hagain, hcanonical, ?_⟩
  rintro s rfl render
  have harguments : s.arguments render p = TemplateItem.arguments render run := by
    rw [hlays.arguments_eq render hrun, TemplateItem.arguments, TemplateItem.arguments]
    simp
  refine ⟨harguments, fun o hwrite blockOnly key => ?_⟩
  rw [TemplateSite.lookup, Options.lookup, Options.call_eq_callWith hwrite, harguments, hcanonical]

/-- An escaped dollar, a substitution, and another one behind two backslashes. The first stays text, and
the substitutions become the placeholders one and two. -/
theorem placeholders_agree_escaped :
    let t : Text := "`___a \\$\x7bx\x7d$\x7bb\x7d\\\\$\x7bd\x7d___`"
    let n : Node := .mk { kind := "template_string", start := 0, stop := 25 } [
      .mk { kind := "template_substitution", start := 11, stop := 15 } [
        .mk { kind := "identifier", start := 13, stop := 14 } []],
      .mk { kind := "template_substitution", start := 17, stop := 21 } [
        .mk { kind := "identifier", start := 19, stop := 20 } []]]
    ∃ text d p run, ofNode? t n = some text ∧ WellEscaped (layout t n) ∧
      Delimiter.ofText Delimiter.defaultSource = .ok d ∧ p ∈ text.phrases d ∧
      canonicalize p.payload = "a \\$\x7bx\x7d\x7barg1\x7d\\\\\x7barg2\x7d" ∧
      canonicalize p.payload = message 1 run ∧
      ∀ (s : TemplateSite), s.text = text → ∀ render,
        s.arguments render p = TemplateItem.arguments render run := by
  intro t n
  have heval : ((ofNode? t n).any fun text => (Delimiter.ofText Delimiter.defaultSource).toOption.any fun d =>
      (text.phrases d).any fun p =>
        canonicalize p.payload == "a \\$\x7bx\x7d\x7barg1\x7d\\\\\x7barg2\x7d") = true := by
    decide +kernel
  obtain ⟨text, htext, heval⟩ := (Option.any_eq_true _ _).mp heval
  obtain ⟨d, hd, heval⟩ := exists_ok_of_any heval
  obtain ⟨p, hp, hcanonical⟩ := any_eq_true.mp heval
  have hescaped : WellEscaped (layout t n) := by decide +kernel
  obtain ⟨-, run, -, -, -, -, -, -, hmessage, hall⟩ := placeholders_agree htext hescaped hd hp
  exact ⟨text, d, p, run, htext, hescaped, hd, hp, by simpa using hcanonical, hmessage,
    fun s hs render => (hall s hs render).1⟩

end TemplateText

end Phrasebook
