import Phrasebook.Proofs.Site.Placeholders
import Phrasebook.Proofs.Site.UsedOnce
import Phrasebook.Proofs.Text.Backslashes

/-!
# Live calls in template literals

What is written for a template literal holds substitutions: the calls for its phrases, and the expressions
that are kept. A substitution is live if an even run of backslashes stands before it. Phrases are looked for
in the text of a template literal as it is spelled, so a phrase may begin or end in the middle of an escape.

## Main results

* `TemplateSite.build_eq_tokens` — what is written is a sequence of characters and substitutions.
* `Site.template_calls_live_iff` — whether a substitution is live depends on what is left of the run of
  backslashes before it.
-/

namespace Phrasebook

open List Text

variable {m : Marker} {start cursor stop : Nat} {later : List (Phrase × Key)}

open TemplateItem

/-- What is written between the backticks of a template literal. -/
inductive TemplateToken where
  | point (c : CodePoint)
  | opening (expression : Text)

lemma endingBackslashes_substitution (u expression : Text) :
    endingBackslashes (u ++ substitution expression) = 0 := by
  rw [substitution, ← append_assoc]
  exact endingBackslashes_concat (by decide) _

namespace TemplateToken

/-- What is written for a token. -/
def text : TemplateToken → Text
  | point c => [c]
  | opening expression => substitution expression

/-- Every substitution among tokens that are written behind a text has an even run of backslashes before
it. -/
def LiveAfter (done : Text) (tokens : List TemplateToken) : Prop :=
  ∀ before expression after, tokens = before ++ opening expression :: after →
    endingBackslashes (done ++ before.flatMap text) % 2 = 0

/-- **Every substitution among the tokens of a template literal is live.** -/
def Live (tokens : List TemplateToken) : Prop := LiveAfter "`" tokens

variable {done : Text} {a b tokens : List TemplateToken}

lemma liveAfter_points (done t : Text) : LiveAfter done (t.map point) := by
  intro before expression after heq
  have hmem : opening expression ∈ t.map point := by
    rw [heq]
    exact mem_append_right _ mem_cons_self
  obtain ⟨c, -, hc⟩ := mem_map.mp hmem
  cases hc

lemma flatMap_text_points (t : Text) : (t.map point).flatMap text = t := by
  induction t with
  | nil => rfl
  | cons c t ih => exact congrArg (c :: ·) ih

/-- Tokens can be looked at in two parts. -/
lemma liveAfter_append :
    LiveAfter done (a ++ b) ↔ LiveAfter done a ∧ LiveAfter (done ++ a.flatMap text) b := by
  constructor
  · refine fun h => ⟨fun before e after heq => ?_, fun before e after heq => ?_⟩
    · exact h before e (after ++ b) (by rw [heq, append_assoc, cons_append])
    · have hboth := h (a ++ before) e after (by rw [heq, append_assoc])
      rwa [flatMap_append, ← append_assoc] at hboth
  · rintro ⟨ha, hb⟩ before e after heq
    rcases append_eq_append_iff.mp heq with ⟨c, rfl, hc⟩ | ⟨c, hc, hrest⟩
    · rw [flatMap_append, ← append_assoc]
      exact hb c e after hc
    · cases c with
      | nil =>
        rw [append_nil] at hc
        subst hc
        simpa using hb [] e after hrest.symm
      | cons x c =>
        obtain ⟨rfl, -⟩ := List.cons.inj hrest
        exact ha before e c hc

/-- What ends with an even run does not matter for what follows. -/
lemma liveAfter_iff (hdone : endingBackslashes done % 2 = 0) :
    LiveAfter done tokens ↔ LiveAfter [] tokens := by
  simp only [LiveAfter, endingBackslashes_append_mod_two hdone, nil_append]

/-- A substitution behind an even run is live. -/
lemma liveAfter_opening {expression : Text} :
    LiveAfter done (opening expression :: tokens) ↔
      endingBackslashes done % 2 = 0 ∧ LiveAfter [] tokens := by
  rw [← singleton_append, liveAfter_append]
  refine and_congr ⟨fun h => ?_, fun h before e after heq => ?_⟩ ?_
  · simpa using h [] expression [] rfl
  · cases before with
    | nil => simpa using h
    | cons x before => simp at heq
  · have hsingle : [opening expression].flatMap text = substitution expression := append_nil _
    rw [hsingle, liveAfter_iff (by rw [endingBackslashes_substitution])]

end TemplateToken

open TemplateToken

/-! ## What is written for a template literal -/

namespace TemplateSite

variable (s : TemplateSite) (o : Options) (render : Renderer)

/-- What is kept from `cursor` to `stop`, with the expressions in the place of their markers. -/
def keptTokens (cursor stop : Nat) : List Marker → List TemplateToken
  | [] => (s.text.combined.slice cursor stop).map .point
  | m :: rest =>
    (s.text.combined.slice cursor m.start).map .point
      ++ .opening (render m.expressionStart m.expressionStop) :: keptTokens m.stop stop rest

/-- What is kept between two offsets. -/
def gapTokens (start stop : Nat) : List TemplateToken :=
  s.keptTokens render start stop (s.text.markers.filter fun m => m.within start stop)

/-- What is written from `cursor` on: what is kept up to the next phrase, the call for it, and so on. -/
def tokensFrom (cursor : Nat) : List (Phrase × Key) → List TemplateToken
  | [] => s.gapTokens render cursor s.text.combined.length
  | (p, key) :: rest =>
    s.gapTokens render cursor p.start
      ++ .opening (s.lookup o render true p key) :: tokensFrom p.stop rest

/-- **What is written for a template literal**, token by token. -/
def tokens : List TemplateToken := s.tokensFrom o render 0 s.resolved

lemma flatMap_keptTokens (cursor stop : Nat) (ms : List Marker) :
    (s.keptTokens render cursor stop ms).flatMap TemplateToken.text =
      s.fillMarkers render cursor stop ms := by
  induction ms generalizing cursor with
  | nil => rw [keptTokens, fillMarkers, flatMap_text_points]
  | cons m ms ih =>
    rw [keptTokens, fillMarkers, flatMap_append, flatMap_cons, flatMap_text_points, ih,
      TemplateToken.text, append_assoc]

/-- The tokens spell what is written. -/
lemma flatMap_tokensFrom (cursor : Nat) (resolved : List (Phrase × Key)) :
    (s.tokensFrom o render cursor resolved).flatMap TemplateToken.text =
      interpolate (s.segment render) (fun p key => substitution (s.lookup o render true p key))
        s.text.combined.length cursor resolved := by
  induction resolved generalizing cursor with
  | nil => exact s.flatMap_keptTokens render cursor _ _
  | cons x resolved ih =>
    rw [tokensFrom, interpolate, flatMap_append, flatMap_cons, ih, gapTokens,
      flatMap_keptTokens, TemplateToken.text, append_assoc]
    rfl

/-- **The replacement of a template literal that is not one phrase**, token by token. -/
theorem build_eq_tokens (hfull : s.full = false) :
    s.build o render = backticked ((s.tokens o render).flatMap TemplateToken.text) := by
  rw [build, hfull, tokens, flatMap_tokensFrom]

end TemplateSite

/-! ## Markers -/

namespace TemplateItem

/-- Every marker stands for a hole. -/
lemma exists_of_mem_marks {n offset : Nat} {items : List TemplateItem} (h : m ∈ marks n offset items) :
    ∃ before first last after, items = before ++ hole first last :: after ∧
      m.start = offset + (spell n before).length ∧
      m.stop = m.start + (TemplateText.markerText (n + (holes before).length)).length := by
  induction items generalizing n offset with
  | nil => cases h
  | cons item items ih =>
    cases item with
    | point c =>
      obtain ⟨before, first, last, after, rfl, hstart, hstop⟩ := ih (h : m ∈ marks n (offset + 1) items)
      refine ⟨point c :: before, first, last, after, rfl, ?_, hstop⟩
      rw [hstart, spell, length_cons]
      omega
    | hole first last =>
      rcases mem_cons.mp h with rfl | h
      · exact ⟨[], first, last, items, rfl, rfl, rfl⟩
      · obtain ⟨before, first', last', after, rfl, hstart, hstop⟩ := ih h
        refine ⟨hole first last :: before, first', last', after, rfl, ?_, ?_⟩
        · rw [hstart, spell, length_append]
          omega
        · rw [hstop, holes_hole, length_cons, Nat.add_right_comm]
          rfl

lemma pairwise_marks (n offset : Nat) (items : List TemplateItem) :
    (marks n offset items).Pairwise fun a b => a.stop ≤ b.start := by
  induction items generalizing n offset with
  | nil => exact List.Pairwise.nil
  | cons item items ih =>
    cases item with
    | point c => exact ih n (offset + 1)
    | hole first last => exact pairwise_cons.mpr ⟨fun m hm => (bounds_of_mem_marks hm).1, ih _ _⟩

/-- Items with markers end with as many backslashes as they are spelled with. -/
lemma endingBackslashes_spell (n : Nat) (items : List TemplateItem) :
    endingBackslashes (spell n items) = escapesBefore items := by
  induction items using List.reverseRecOn with
  | nil => rfl
  | append_singleton items item ih =>
    rw [spell_append]
    cases item with
    | hole first last =>
      rw [escapesBefore_concat (by simp), spell, spell, append_nil, TemplateText.markerText,
        ← append_assoc]
      exact endingBackslashes_concat (by decide) _
    | point c =>
      rw [spell, spell]
      by_cases hc : c = '\\'
      · subst hc
        rw [endingBackslashes_append, if_pos (by decide), ih, escapesBefore, escapesBefore, reverse_append,
          reverse_singleton, singleton_append, takeWhile_cons_of_pos (by simp)]
        exact Nat.add_comm _ _
      · rw [endingBackslashes_concat hc, escapesBefore_concat (by simpa using hc)]

end TemplateItem

namespace TemplateText.Lays

variable {text : TemplateText} {items : List TemplateItem} (h : text.Lays items)

include h

lemma take_marker (hm : m ∈ text.markers) :
    ∃ before first last after, items = before ++ hole first last :: after ∧
      text.combined.take m.start = spell 0 before ∧
      text.combined.take m.stop = spell 0 before ++ markerText (holes before).length := by
  rw [h.markers] at hm
  obtain ⟨before, first, last, after, rfl, hstart, hstop⟩ := exists_of_mem_marks hm
  rw [Nat.zero_add] at hstart hstop
  refine ⟨before, first, last, after, rfl, ?_, ?_⟩
  · rw [h.combined, spell_append, hstart, take_left]
  · rw [h.combined, spell_append, spell, Nat.zero_add, ← append_assoc, hstop, hstart,
      ← length_append, take_left]

lemma endingBackslashes_slice (hm : m ∈ text.markers) (hstart : start ≤ m.start) :
    endingBackslashes (text.combined.slice start m.stop) = 0 := by
  obtain ⟨before, -, -, -, -, htake, hwith⟩ := h.take_marker hm
  obtain ⟨-, hlt, -⟩ := bounds_of_mem_marks (h.markers ▸ hm)
  have hmarker : text.combined.slice m.start m.stop = markerText (holes before).length := by
    apply @List.append_cancel_left _ (text.combined.take m.start)
    rw [take_append_slice _ hlt.le, hwith, htake]
  rw [← slice_append_slice _ hstart hlt.le, hmarker, markerText, ← append_assoc]
  exact endingBackslashes_concat (by decide) _

end TemplateText.Lays

/-! ## Gaps between phrases -/

/-- What ends with an even run can be left out at the front of a slice. -/
lemma endingBackslashes_slice_mod_two {t : Text} {a b c : Nat} (hab : a ≤ b) (hbc : b ≤ c)
    (heven : endingBackslashes (t.slice a b) % 2 = 0) :
    endingBackslashes (t.slice b c) % 2 = endingBackslashes (t.slice a c) % 2 := by
  rw [← slice_append_slice t hab hbc, endingBackslashes_append_mod_two heven]

namespace TemplateSite

variable (s : TemplateSite)

/-- Where the gap behind phrases begins. -/
def gapStart (cursor : Nat) (earlier : List (Phrase × Key)) : Nat :=
  (earlier.getLast?.map fun x => x.1.stop).getD cursor

lemma gapStart_cons (cursor : Nat) (x : Phrase × Key) (earlier : List (Phrase × Key)) :
    gapStart cursor (x :: earlier) = gapStart x.1.stop earlier := by
  cases earlier with
  | nil => rfl
  | cons y earlier => simp [gapStart, getLast?_cons]

/-- Where the gap before phrases ends. -/
def gapStop (later : List (Phrase × Key)) : Nat :=
  (later.head?.map fun x => x.1.start).getD s.text.combined.length

/-- **A gap between phrases is clean**: what it has of the run of backslashes before a marker in it, and
before the phrase behind it, is even. -/
structure IsCleanGap (start : Nat) (later : List (Phrase × Key)) : Prop where
  kept : ∀ m ∈ s.text.markers, m.within start (s.gapStop later) = true →
    endingBackslashes (s.text.combined.slice start m.start) % 2 = 0
  phrase : later ≠ [] → endingBackslashes (s.text.combined.slice start (s.gapStop later)) % 2 = 0

variable {s} {items : List TemplateItem} (h : s.text.Lays items) (o : Options) (render : Renderer)

include h

/-- What is kept from `start` on, once `cursor` is reached behind a marker: its substitutions are live if
the runs before their markers are even, and it ends as the text does.

**Proof sketch.** Induction on the markers. A marker ends with a brace, so no run goes over it. -/
lemma live_keptTokens (hstart : start ≤ cursor) (hcursor : cursor ≤ stop)
    (heven : endingBackslashes (s.text.combined.slice start cursor) % 2 = 0) {ms : List Marker}
    (hpair : ms.Pairwise fun a b => a.stop ≤ b.start)
    (hms : ∀ m ∈ ms, m ∈ s.text.markers ∧ cursor ≤ m.start ∧ m.stop ≤ stop) :
    (LiveAfter [] (s.keptTokens render cursor stop ms) ↔
      ∀ m ∈ ms, endingBackslashes (s.text.combined.slice start m.start) % 2 = 0) ∧
    endingBackslashes ((s.keptTokens render cursor stop ms).flatMap TemplateToken.text) % 2 =
      endingBackslashes (s.text.combined.slice start stop) % 2 := by
  induction ms generalizing cursor with
  | nil =>
    rw [keptTokens, flatMap_text_points]
    exact ⟨iff_of_true (liveAfter_points _ _) (by simp),
      endingBackslashes_slice_mod_two hstart hcursor heven⟩
  | cons m ms ih =>
    obtain ⟨hbehind, hpair⟩ := pairwise_cons.mp hpair
    obtain ⟨hm, hle, hstop⟩ := hms m mem_cons_self
    obtain ⟨-, hlt, -⟩ := bounds_of_mem_marks (h.markers ▸ hm)
    have hbrace := h.endingBackslashes_slice hm (hstart.trans hle)
    obtain ⟨hlive, hends⟩ := ih (by omega) hstop (by rw [hbrace]) hpair fun m' hm' =>
      ⟨(hms m' (mem_cons_of_mem _ hm')).1, hbehind m' hm', (hms m' (mem_cons_of_mem _ hm')).2.2⟩
    rw [keptTokens]
    constructor
    · rw [liveAfter_append, liveAfter_opening, nil_append, flatMap_text_points, hlive,
        endingBackslashes_slice_mod_two hstart hle heven, forall_mem_cons]
      exact and_iff_right (liveAfter_points _ _)
    · rw [flatMap_append, flatMap_cons, ← append_assoc, TemplateToken.text,
        endingBackslashes_append_mod_two (by rw [endingBackslashes_substitution]), hends]

/-- When the substitutions between two phrases are live. -/
lemma live_gapTokens (hle : start ≤ stop) :
    (LiveAfter [] (s.gapTokens render start stop) ↔
      ∀ m ∈ s.text.markers, m.within start stop →
        endingBackslashes (s.text.combined.slice start m.start) % 2 = 0) ∧
    endingBackslashes ((s.gapTokens render start stop).flatMap TemplateToken.text) % 2 =
      endingBackslashes (s.text.combined.slice start stop) % 2 := by
  have hpair : s.text.markers.Pairwise fun a b => a.stop ≤ b.start := h.markers ▸ pairwise_marks 0 0 items
  have hnone : s.text.combined.slice start start = [] := by simp [Text.slice]
  have hms : ∀ m ∈ s.text.markers.filter (fun m => m.within start stop),
      m ∈ s.text.markers ∧ start ≤ m.start ∧ m.stop ≤ stop := by
    simp [Marker.within]
  obtain ⟨hlive, hends⟩ := live_keptTokens h render (le_refl start) hle
    (by rw [hnone, endingBackslashes_nil]) (hpair.sublist filter_sublist) hms
  refine ⟨hlive.trans ?_, hends⟩
  simp only [mem_filter, and_imp]

/-- **The substitutions that are written are live if the gaps between phrases are clean**, and only then.

**Proof sketch.** Induction on the phrases: the gap before the first one is what is kept up to its call, and
a call ends with a brace, so the other gaps are those behind it. -/
theorem live_tokensFrom {resolved : List (Phrase × Key)}
    (hpair : resolved.Pairwise fun a b => a.1.stop ≤ b.1.start) (hlt : ∀ x ∈ resolved, x.1.start < x.1.stop)
    (hstop : ∀ x ∈ resolved, x.1.stop ≤ s.text.combined.length) (hcursor : cursor ≤ s.text.combined.length)
    (hbehind : ∀ x ∈ resolved, cursor ≤ x.1.start) :
    LiveAfter [] (s.tokensFrom o render cursor resolved) ↔
      ∀ earlier later, resolved = earlier ++ later → s.IsCleanGap (gapStart cursor earlier) later := by
  induction resolved generalizing cursor with
  | nil =>
    rw [tokensFrom, (live_gapTokens h render hcursor).1]
    constructor
    · intro hkept earlier later heq
      obtain ⟨rfl, rfl⟩ := append_eq_nil_iff.mp heq.symm
      exact ⟨hkept, fun hne => absurd rfl hne⟩
    · exact fun hgaps => (hgaps [] [] rfl).kept
  | cons x resolved ih =>
    obtain ⟨p, key⟩ := x
    obtain ⟨hnext, hpair⟩ := pairwise_cons.mp hpair
    obtain ⟨hlive, hends⟩ := live_gapTokens h render (hbehind _ mem_cons_self)
    have hrest := ih hpair (fun y hy => hlt y (mem_cons_of_mem _ hy))
      (fun y hy => hstop y (mem_cons_of_mem _ hy)) (hstop _ mem_cons_self) hnext
    rw [tokensFrom, liveAfter_append, liveAfter_opening, nil_append, hlive, hends, hrest]
    constructor
    · rintro ⟨hkept, hphrase, hgaps⟩ earlier later heq
      cases earlier with
      | nil =>
        obtain rfl := heq
        exact ⟨hkept, fun _ => hphrase⟩
      | cons y earlier =>
        obtain ⟨rfl, hsplit⟩ := List.cons.inj heq
        rw [gapStart_cons]
        exact hgaps earlier later hsplit
    · intro hgaps
      have hfirst := hgaps [] ((p, key) :: resolved) rfl
      refine ⟨hfirst.kept, hfirst.phrase (by simp), fun earlier later heq => ?_⟩
      have hgap := hgaps ((p, key) :: earlier) later (by rw [heq, cons_append])
      rwa [gapStart_cons] at hgap

/-- A hole stands behind an even run, so a gap that begins outside of an escape is clean if the phrase behind
it does not begin inside of one. -/
lemma isCleanGap_iff (hescaped : WellEscaped items)
    (heven : endingBackslashes (s.text.combined.take start) % 2 = 0) (hle : start ≤ s.gapStop later) :
    s.IsCleanGap start later ↔
      (later ≠ [] → endingBackslashes (s.text.combined.take (s.gapStop later)) % 2 = 0) := by
  have hfront : ∀ q, start ≤ q → endingBackslashes (s.text.combined.slice start q) % 2 =
      endingBackslashes (s.text.combined.take q) % 2 := fun q hq =>
    endingBackslashes_slice_mod_two (Nat.zero_le start) hq heven
  constructor
  · exact fun hgap hne => hfront _ hle ▸ hgap.phrase hne
  · refine fun hphrase => ⟨fun m hm hwithin => ?_, fun hne => hfront _ hle ▸ hphrase hne⟩
    obtain ⟨before, first, last, after, rfl, htake, -⟩ := h.take_marker hm
    have hstart : start ≤ m.start := by
      simp only [Marker.within, Bool.and_eq_true, decide_eq_true_eq] at hwithin
      exact hwithin.1
    rw [hfront _ hstart, htake, endingBackslashes_spell, hescaped.even]

omit h in
/-- The gap between phrases begins where no escape is open, and before it ends. -/
lemma endingBackslashes_gapStart (hs : s.IsSound)
    (hends : ∀ x ∈ s.resolved, endingBackslashes (s.text.combined.take x.1.stop) % 2 = 0)
    {earlier : List (Phrase × Key)} (hsplit : s.resolved = earlier ++ later) :
    endingBackslashes (s.text.combined.take (gapStart 0 earlier)) % 2 = 0 ∧
      gapStart 0 earlier ≤ s.gapStop later := by
  rcases eq_nil_or_concat earlier with rfl | ⟨earlier, x, rfl⟩
  · exact ⟨rfl, Nat.zero_le _⟩
  · have hlast : gapStart 0 (earlier.concat x) = x.1.stop := by simp [gapStart]
    have hx : x ∈ s.resolved := by simp [hsplit]
    rw [hlast]
    refine ⟨hends x hx, ?_⟩
    cases later with
    | nil => exact hs.stop_le x hx
    | cons y later =>
      have hpair := hs.pairwise
      rw [hsplit] at hpair
      exact (pairwise_append.mp hpair).2.2 x (by simp) y mem_cons_self

/-- All gaps are clean if no phrase begins or ends inside of an escape. -/
lemma forall_isCleanGap_iff (hs : s.IsSound) (hescaped : WellEscaped items)
    (hends : ∀ x ∈ s.resolved, endingBackslashes (s.text.combined.take x.1.stop) % 2 = 0) :
    (∀ earlier later, s.resolved = earlier ++ later → s.IsCleanGap (gapStart 0 earlier) later) ↔
      ∀ x ∈ s.resolved, endingBackslashes (s.text.combined.take x.1.start) % 2 = 0 := by
  constructor
  · intro hgaps x hx
    obtain ⟨earlier, later, hsplit⟩ := append_of_mem hx
    obtain ⟨heven, hle⟩ := endingBackslashes_gapStart hs hends hsplit
    exact (isCleanGap_iff h hescaped heven hle).mp (hgaps _ _ hsplit) (cons_ne_nil _ _)
  · intro hstarts earlier later hsplit
    obtain ⟨heven, hle⟩ := endingBackslashes_gapStart hs hends hsplit
    refine (isCleanGap_iff h hescaped heven hle).mpr fun hne => ?_
    obtain ⟨y, later, rfl⟩ := exists_cons_of_ne_nil hne
    exact hstarts y (by simp [hsplit])

end TemplateSite

/-- **When the calls in a template literal are live.** Take a template literal and phrases in it that have
got keys, not one phrase that is all of it. What takes its place is a template literal: the text that is
kept, a substitution for each call, and one for each expression that is kept. Every substitution stands
behind an even run of backslashes if and only if the gaps between the phrases are clean. If the literal is as
the grammar has it and no phrase ends inside of an escape, this is so if and only if no phrase begins inside
of one. -/
theorem Site.template_calls_live_iff {t : Text} {n : Node} {text : TemplateText} {d : Delimiter} {site : Site}
    (htext : TemplateText.ofNode? t n = some text) (hliteral : site.literal = .template text)
    (hresolved : site.IsResolved d) (hpartial : site.full = false) (o : Options) (callName : Text)
    (render : TemplateSite.Renderer) :
    ∃ s : TemplateSite, site.replacement o callName = .template s ∧ s.text = text ∧
      s.resolved = site.resolved ∧
      s.build o render = backticked ((s.tokens o render).flatMap TemplateToken.text) ∧
      (Live (s.tokens o render) ↔ ∀ earlier later, s.resolved = earlier ++ later →
        s.IsCleanGap (TemplateSite.gapStart 0 earlier) later) ∧
      (WellEscaped (TemplateText.layout t n) →
        (∀ x ∈ s.resolved, endingBackslashes (text.combined.take x.1.stop) % 2 = 0) →
        (Live (s.tokens o render) ↔
          ∀ x ∈ s.resolved, endingBackslashes (text.combined.take x.1.start) % 2 = 0)) := by
  let s : TemplateSite := ⟨text, site.resolved, site.full, callName, site.cursor.allowsLineComment⟩
  have hlays : s.text.Lays (TemplateText.layout t n) := TemplateText.lays_ofNode? htext
  have hsound : s.IsSound := hresolved.isSound hliteral _ _
  have hlive : Live (s.tokens o render) ↔ ∀ earlier later, s.resolved = earlier ++ later →
      s.IsCleanGap (TemplateSite.gapStart 0 earlier) later := by
    rw [Live, liveAfter_iff (by decide)]
    exact TemplateSite.live_tokensFrom hlays o render hsound.pairwise hsound.lt hsound.stop_le
      (Nat.zero_le _) fun x _ => Nat.zero_le _
  refine ⟨s, by simp only [Site.replacement, hliteral, s], rfl, rfl, s.build_eq_tokens o render hpartial,
    hlive, fun hescaped hends => hlive.trans ?_⟩
  exact TemplateSite.forall_isCleanGap_iff hlays hsound hescaped hends

/-- A phrase behind one backslash, and behind two, with a substitution that is kept. The call is text in the
first literal, and it is live in the second one. -/
theorem Site.template_calls_live_iff_backslash :
    let d := (Delimiter.ofText "(a)").toOption.get (by with_unfolding_all rfl)
    let odd : Text := "`\\a $\x7bb\x7d`"
    let oddNode : Node := .mk { kind := "template_string", start := 0, stop := 9 } [
      .mk { kind := "template_substitution", start := 4, stop := 8 } [
        .mk { kind := "identifier", start := 6, stop := 7 } []]]
    let oddSite : Site := ⟨⟨oddNode, []⟩, .template ⟨"\\a $\x7b0\x7d", [⟨3, 7, 6, 7⟩]⟩,
      [(⟨"a", "a", 1, 2⟩, .name "a")], false⟩
    let even : Text := "`\\\\a $\x7bb\x7d`"
    let evenNode : Node := .mk { kind := "template_string", start := 0, stop := 10 } [
      .mk { kind := "template_substitution", start := 5, stop := 9 } [
        .mk { kind := "identifier", start := 7, stop := 8 } []]]
    let evenSite : Site := ⟨⟨evenNode, []⟩, .template ⟨"\\\\a $\x7b0\x7d", [⟨4, 8, 7, 8⟩]⟩,
      [(⟨"a", "a", 2, 3⟩, .name "a")], false⟩
    oddSite.IsResolved d ∧ evenSite.IsResolved d ∧
      (∃ s, oddSite.replacement {} "t" = .template s ∧
        s.build {} odd.slice = "`\\$\x7bt(\"a\")\x7d $\x7bb\x7d`" ∧ ¬ Live (s.tokens {} odd.slice)) ∧
      ∃ s, evenSite.replacement {} "t" = .template s ∧
        s.build {} even.slice = "`\\\\$\x7bt(\"a\")\x7d $\x7bb\x7d`" ∧ Live (s.tokens {} even.slice) := by
  intro d odd oddNode oddSite even evenNode evenSite
  have hodd : oddSite.IsResolved d := ⟨by decide +kernel, by decide +kernel, nofun⟩
  have heven : evenSite.IsResolved d := ⟨by decide +kernel, by decide +kernel, nofun⟩
  refine ⟨hodd, heven, ?_, ?_⟩
  · obtain ⟨s, hs, -, -, -, -, hlive⟩ := template_calls_live_iff
      (by decide +kernel : TemplateText.ofNode? odd oddNode = some _) rfl hodd rfl {} "t" odd.slice
    obtain rfl := Replacement.template.inj hs
    refine ⟨_, rfl, by decide +kernel, fun h => ?_⟩
    exact absurd ((hlive (by decide +kernel) (by decide +kernel)).mp h) (by decide +kernel)
  · obtain ⟨s, hs, -, -, -, -, hlive⟩ := template_calls_live_iff
      (by decide +kernel : TemplateText.ofNode? even evenNode = some _) rfl heven rfl {} "t" even.slice
    obtain rfl := Replacement.template.inj hs
    exact ⟨_, rfl, by decide +kernel, (hlive (by decide +kernel) (by decide +kernel)).mpr (by decide +kernel)⟩

end Phrasebook
