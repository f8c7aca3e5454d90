import Phrasebook.Proofs.Assoc
import Phrasebook.Proofs.Message.Bookkeeping
import Phrasebook.Proofs.Pattern.Locality

/-!
# Phrases that are read again

A phrase is found in a text, and its key is then looked up by reading the phrase once more, without the
text around it. Nothing but the phrase must be found there, with the same payload; else the key would be
that of another message than the one that the call is written for. The hit in the text ends where the
phrase ends, so it is the first one that stays in the phrase; and what is captured lies inside of it.

## Main results

* `Pattern.exists_captures` — a plain pattern captures nothing but what it takes.
* `Delimiter.phrases_read_again` — a plain pattern that does not match the empty text finds the phrase.
-/

namespace Phrasebook

open List Option Text

variable {h : Head} {hit : Hit} {p : Pattern} {t : Text}

/-! ## What is captured -/

/-- A head further on; whatever was captured on the way lies between the two. -/
structure Head.Captures (h h' : Head) : Prop where
  le : h.offset ≤ h'.offset
  captured : ∃ parts, h'.captured = parts ++ h.captured ∧
    ∀ part ∈ parts, h.offset ≤ part.2.1 ∧ part.2.2 ≤ h'.offset

namespace Head.Captures

variable {h h' h'' : Head}

lemma refl (h : Head) : h.Captures h := ⟨le_refl _, [], rfl, forall_mem_nil _⟩

lemma trans (h₁ : h.Captures h') (h₂ : h'.Captures h'') : h.Captures h'' := by
  obtain ⟨parts, hparts, hin⟩ := h₁.captured
  obtain ⟨more, hmore, hin'⟩ := h₂.captured
  refine ⟨h₁.le.trans h₂.le, more ++ parts, by rw [hmore, hparts, append_assoc], ?_⟩
  intro part hpart
  rcases mem_append.mp hpart with hpart | hpart
  · exact ⟨h₁.le.trans (hin' part hpart).1, (hin' part hpart).2⟩
  · exact ⟨(hin part hpart).1, (hin part hpart).2.trans h₂.le⟩

end Head.Captures

/-- **A plain pattern captures nothing but what it takes.**

**Proof sketch.** Induction on the pattern; rounds of a repetition follow each other. -/
theorem Pattern.exists_captures (hplain : p.isPlain) {α : Type} :
    ∀ (next : Continuation α) (h : Head) (a : α), p.run next h = some a →
      ∃ h', h.Captures h' ∧ next h' = some a := by
  induction p with
  | empty => exact fun next h a hrun => ⟨h, .refl h, hrun⟩
  | never => exact fun next h a hrun => by simp [run] at hrun
  | one s =>
    intro next h a hrun
    obtain ⟨before, after, offset, captured⟩ := h
    cases after with
    | nil => simp [run, Head.advance?] at hrun
    | cons c rest =>
      simp only [run, Head.advance?] at hrun
      split_ifs at hrun
      refine ⟨⟨c :: before, rest, offset + 1, captured⟩, ⟨?_, [], rfl, forall_mem_nil _⟩, hrun⟩
      exact Nat.le_succ offset
  | seq p q ihp ihq =>
    intro next h a hrun
    obtain ⟨hp, hq⟩ := Bool.and_eq_true_iff.mp hplain
    obtain ⟨h₁, hfirst, hrest⟩ := ihp hp _ h a hrun
    obtain ⟨h₂, hsecond, hnext⟩ := ihq hq _ h₁ a hrest
    exact ⟨h₂, hfirst.trans hsecond, hnext⟩
  | alt p q ihp ihq =>
    intro next h a hrun
    obtain ⟨hp, hq⟩ := Bool.and_eq_true_iff.mp hplain
    simp only [run] at hrun
    split at hrun
    · rename_i b hfirst
      obtain rfl := some.inj hrun
      exact ihp hp _ h _ hfirst
    · exact ihq hq _ h a hrun
  | group number p ih =>
    intro next h a hrun
    obtain ⟨h', ⟨hle, parts, hparts, hin⟩, hnext⟩ := ih hplain _ h a hrun
    refine ⟨{ h' with captured := (number, h.offset, h'.offset) :: h'.captured },
      ⟨hle, (number, h.offset, h'.offset) :: parts, ?_, ?_⟩, hnext⟩
    · exact congrArg (List.cons _) hparts
    · exact forall_mem_cons.mpr ⟨⟨le_refl _, le_refl _⟩, hin⟩
  | times greed least most p ih =>
    intro next h a hrun
    obtain ⟨hgreed, hp⟩ := Bool.and_eq_true_iff.mp hplain
    rw [run_times (by simpa using hgreed)] at hrun
    exact exists_of_runRounds .refl .trans (ih hp) _ _ hrun
  | again | ifCaptured | atomic | place | ahead | behind => simp [isPlain] at hplain

/-- What is captured lies in the hit. -/
lemma Pattern.captured_le_of_hitAt (hplain : p.isPlain) {nonEmpty : Bool} (hnone : h.captured = [])
    (hhit : p.hitAt nonEmpty h = some hit) {number : Nat} {span : Nat × Nat}
    (hspan : hit.captured.lookup number = some span) : span.2 ≤ hit.stop := by
  obtain ⟨h', hreach, hnext⟩ := exists_captures hplain _ h hit hhit
  split_ifs at hnext
  obtain rfl := some.inj hnext
  obtain ⟨parts, hparts, hin⟩ := hreach.captured
  rw [hnone, append_nil] at hparts
  exact (hin _ (hparts ▸ mem_of_lookup hspan)).2

/-! ## Hits at their places -/

/-- **Every hit begins at some place of the text.** -/
theorem Pattern.exists_mem_hitsAt (p : Pattern) {before : Text} {offset skip : Nat}
    (h : hit ∈ p.allHitsFrom before offset skip t) :
    ∃ u v, t = u ++ v ∧ hit ∈ p.hitsAt ⟨u.reverse ++ before, v, offset + u.length, []⟩ := by
  induction t generalizing before offset skip with
  | nil =>
    rw [allHitsFrom] at h
    split_ifs at h
    · exact ⟨[], [], rfl, h⟩
    · cases h
  | cons c rest ih =>
    have hlater : ∀ {skip}, hit ∈ p.allHitsFrom (c :: before) (offset + 1) skip rest → ∃ u v,
        c :: rest = u ++ v ∧ hit ∈ p.hitsAt ⟨u.reverse ++ before, v, offset + u.length, []⟩ := by
      intro skip h
      obtain ⟨u, v, rfl, hfound⟩ := ih h
      refine ⟨c :: u, v, rfl, ?_⟩
      rw [reverse_cons, append_assoc, length_cons, Nat.add_comm u.length, ← Nat.add_assoc]
      exact hfound
    cases skip with
    | succ skip => exact hlater h
    | zero =>
      rw [allHitsFrom] at h
      rcases mem_append.mp h with h | h
      · exact ⟨[], c :: rest, rfl, h⟩
      · exact hlater h

/-- A plain pattern that matches the empty text nowhere matches it in no other text. -/
lemma Pattern.lt_of_hitAt (hplain : p.isPlain) (hempty : p.firstHit [] = none) (hnone : h.captured = [])
    (hhit : p.hitAt false h = some hit) : hit.start < hit.stop := by
  obtain ⟨hstart, hin, -⟩ := p.hitAt_spec hhit
  have hle := hin.le
  by_contra hlt
  -- an empty hit stays in the empty part that begins at its place
  have hpart : Head.IsPartOf h.offset h.offset ⟨[], [], 0, []⟩ h :=
    ⟨⟨h.after, rfl⟩, (Nat.zero_add _).symm, rfl, hnone⟩
  obtain ⟨hit', hfound, -⟩ := (agree_hitAt hplain false hpart).some hit hhit (by omega)
  rw [firstHit, firstHitFrom, hfound] at hempty
  cases hempty

/-- So there is at most one hit at every place. -/
lemma Pattern.hitsAt_eq_toList (hplain : p.isPlain) (hempty : p.firstHit [] = none)
    (hnone : h.captured = []) : p.hitsAt h = (p.hitAt false h).toList := by
  rw [hitsAt]
  cases hhit : p.hitAt false h with
  | none => rfl
  | some hit =>
    have hlt := lt_of_hitAt hplain hempty hnone hhit
    exact if_neg (by omega)

/-! ## Reading a phrase again -/

lemma Hit.phrase?_eq_some_iff {p : Phrase} :
    hit.phrase? t = some p ↔ ∃ span, hit.captured.lookup 1 = some span ∧ t.slice span.1 span.2 ≠ [] ∧
      p = ⟨t.slice hit.start hit.stop, t.slice span.1 span.2, hit.start, hit.stop⟩ := by
  rw [phrase?]
  cases hit.captured.lookup 1 with
  | none => simp
  | some span =>
    simp only [some.injEq, exists_eq_left', List.isEmpty_iff]
    split_ifs with hnil
    · simp [hnil]
    · simp [hnil, eq_comm]

namespace Delimiter

variable {d : Delimiter} {t : Text} {p : Phrase}

/-- **A phrase is the phrase of its own text**: nothing else is found there, and its payload is the same. -/
theorem phrase?_full (hplain : d.pattern.isPlain) (hempty : d.pattern.firstHit [] = none)
    (hp : p ∈ d.phrases t) : d.phrase? p.full = some ⟨p.full, p.payload, 0, p.full.length⟩ := by
  obtain ⟨hit, hhit, hphrase⟩ := mem_filterMap.mp hp
  obtain ⟨span, hspan, hne, rfl⟩ := Hit.phrase?_eq_some_iff.mp hphrase
  have hin := d.pattern.mem_allHits hhit
  have hin_le := hin.le
  have hin_stop := hin.stop_le
  obtain ⟨u, v, rfl, hfound⟩ := d.pattern.exists_mem_hitsAt hhit
  rw [Pattern.hitsAt_eq_toList hplain hempty rfl, mem_toList] at hfound
  have hstart : hit.start = u.length := by
    rw [(d.pattern.hitAt_spec hfound).1]
    exact Nat.zero_add _
  set full := (u ++ v).slice hit.start hit.stop with hfull
  have hlength : full.length = hit.stop - hit.start := by
    rw [hfull, length_slice]
    omega
  -- the phrase is a part of the text, and the hit ends where it ends
  have hpart : Head.IsPartOf u.length hit.stop ⟨[], full, 0, []⟩
      ⟨u.reverse ++ [], v, 0 + u.length, []⟩ := by
    refine ⟨⟨v.drop full.length, ?_⟩, rfl, ?_, rfl⟩
    · have htake : full = v.take full.length := by
        rw [hlength, hfull, slice_eq_take_drop, hstart, drop_left]
      show v = full ++ v.drop full.length
      nth_rewrite 1 [htake]
      exact (take_append_drop _ _).symm
    · show 0 + u.length + full.length = hit.stop
      omega
  obtain ⟨hit', hfound', hshift⟩ := (Pattern.agree_hitAt hplain false hpart).some hit hfound (le_refl _)
  obtain ⟨hstart', -, -⟩ := d.pattern.hitAt_spec hfound'
  have hstop' : hit.stop = hit'.stop + u.length := congrArg Hit.stop hshift
  have hfirst : d.pattern.firstHit full = some hit' := by
    rw [Pattern.firstHit, Pattern.firstHitFrom.eq_def, hfound']
  obtain ⟨span', hspan', hmoved⟩ : ∃ span', hit'.captured.lookup 1 = some span' ∧
      (span'.1 + u.length, span'.2 + u.length) = span := by
    rw [hshift, Hit.shifted, lookup_map_shiftCapture] at hspan
    exact map_eq_some_iff.mp hspan
  -- what is captured lies in the phrase, so it is the same text
  have hinside := Pattern.captured_le_of_hitAt hplain rfl hfound' hspan'
  have hpayload : full.slice span'.1 span'.2 = (u ++ v).slice span.1 span.2 := by
    rw [hfull, hstart, slice_slice _ (by omega), ← hmoved]
  have hall : full.slice hit'.start hit'.stop = full := by
    have hlen : full.length = hit'.stop := by omega
    rw [hstart', ← hlen, Text.slice, take_length, drop_zero]
  rw [phrase?, hfirst, bind_some]
  refine Hit.phrase?_eq_some_iff.mpr ⟨span', hspan', by rwa [hpayload], ?_⟩
  rw [hall, hpayload, hstart', show hit'.stop = full.length by omega]

end Delimiter

/-! ## The keys of phrases -/

/-- The key of a message text, whichever phrase it stands in. -/
def resolveText (policy : KeyPolicy) (catalogue : Catalogue) (location : Location) (value : Text) :
    Bookkeeping Key :=
  match catalogue.lookup value with
  | some entry => resolveKnown policy entry value location
  | none => resolveNew policy value location

/-- A phrase that is one when read again gets the key of its message text. -/
lemma resolveKey_of_phrase? {d : Delimiter} {full : Text} {q : Phrase} (h : d.phrase? full = some q)
    (policy : KeyPolicy) (catalogue : Catalogue) (location : Location) :
    resolveKey d policy catalogue location full =
      some <$> resolveText policy catalogue location (canonicalize q.payload) := by
  unfold resolveKey resolveText
  rw [h, map_eq_pure_bind]
  simp only
  cases catalogue.lookup (canonicalize q.payload) <;> rfl

/-- Phrases that are all read again are all given keys. -/
lemma map_fst_resolvePhrases (e : Extractor) (location : Location) {phrases : List Phrase}
    (hmarked : ∀ p ∈ phrases, (e.delimiter.phrase? p.full).isSome) {resolved : List (Phrase × Key)}
    {l l' : Ledger} (h : Runs (e.resolvePhrases location phrases) l resolved l') :
    resolved.map Prod.fst = phrases := by
  induction phrases generalizing l resolved with
  | nil =>
    obtain ⟨rfl, -⟩ := runs_pure.mp h
    rfl
  | cons p rest ih =>
    rw [Extractor.resolvePhrases] at h
    obtain ⟨key, m, others, hkey, hothers, rfl⟩ := runs_bind_bind_pure h
    obtain ⟨hfirst, hrest⟩ := forall_mem_cons.mp hmarked
    obtain ⟨q, hq⟩ := isSome_iff_exists.mp hfirst
    rw [resolveKey_of_phrase? hq, map_eq_pure_bind] at hkey
    obtain ⟨k, m'', -, hpure⟩ := runs_bind.mp hkey
    obtain ⟨rfl, -⟩ := runs_pure.mp hpure
    simp [ih hrest hothers]

/-- **A phrase is read again as it was found.** Take a delimiter whose pattern is made of characters, sets,
groups, alternatives and greedy or lazy repetition, and does not match the empty text. Every phrase that it
finds in a text is found again in the text of the phrase: it covers all of that text and has the same payload.
So giving the phrase its key is giving its message text one, and of the phrases of a text that are given keys
none is left out. -/
theorem Delimiter.phrases_read_again {d : Delimiter} (hplain : d.pattern.isPlain = true)
    (hempty : d.pattern.firstHit [] = none) (t : Text) :
    (∀ p ∈ d.phrases t,
      d.phrase? p.full = some ⟨p.full, p.payload, 0, p.full.length⟩ ∧
      ∀ policy catalogue location, resolveKey d policy catalogue location p.full =
        some <$> resolveText policy catalogue location (canonicalize p.payload)) ∧
    ∀ (e : Extractor) (location : Location) (phrases : List Phrase), e.delimiter = d →
      phrases ⊆ d.phrases t → ∀ l resolved l', Runs (e.resolvePhrases location phrases) l resolved l' →
        resolved.map Prod.fst = phrases := by
  have hagain : ∀ p ∈ d.phrases t, d.phrase? p.full = some ⟨p.full, p.payload, 0, p.full.length⟩ :=
    fun p hp => phrase?_full hplain hempty hp
  refine ⟨fun p hp => ⟨hagain p hp, ?_⟩, ?_⟩
  · have hkey := resolveKey_of_phrase? (hagain p hp)
    exact hkey
  · rintro e location phrases rfl hsubset l resolved l' hrun
    refine map_fst_resolvePhrases e location (fun p hp => ?_) hrun
    rw [hagain p (hsubset hp)]
    rfl

/-- Two ways to go on behind the payload, of which the text decides; in the text of the phrase alone the same
one is taken. -/
theorem Delimiter.phrases_read_again_alternatives :
    let d := (Delimiter.ofText "x(a|ab)(?:c|bcd)+?").toOption.get (by with_unfolding_all rfl)
    d.pattern.isPlain = true ∧ d.pattern.firstHit [] = none ∧
      d.phrases "yxabccxabcd" = [⟨"xabc", "ab", 1, 5⟩, ⟨"xabcd", "a", 6, 11⟩] ∧
      d.phrase? "xabc" = some ⟨"xabc", "ab", 0, 4⟩ ∧ d.phrase? "xabcd" = some ⟨"xabcd", "a", 0, 5⟩ := by
  intro d
  have hplain : d.pattern.isPlain = true := by decide +kernel
  have hempty : d.pattern.firstHit [] = none := by decide +kernel
  have hphrases : d.phrases "yxabccxabcd" = [⟨"xabc", "ab", 1, 5⟩, ⟨"xabcd", "a", 6, 11⟩] := by decide +kernel
  obtain ⟨hagain, -⟩ := phrases_read_again hplain hempty "yxabccxabcd"
  rw [hphrases] at hagain
  obtain ⟨hfirst, hrest⟩ := forall_mem_cons.mp hagain
  exact ⟨hplain, hempty, hphrases, hfirst.1, (hrest _ mem_cons_self).1⟩

end Phrasebook
