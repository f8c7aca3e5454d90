import Mathlib.Data.List.Basic
import Phrasebook.Delimiter

/-!
# Hits and phrases stand in order

A pattern that is run at a head leaves a head further on in the same text, whatever it captures on
the way and however far it looks around.

## Main results

* `Pattern.run_isOnward` — a run leads on in the text.
* `Pattern.pairwise_allHits`, `Delimiter.pairwise_phrases` — hits and phrases follow each other.
* `Pattern.mem_allHits`, `Delimiter.mem_phrases` — they lie in the text.
-/

namespace Phrasebook

open List Option

variable {h h' : Head} {hit : Hit} {p : Phrase} {t : Text} {count : Nat} {last : Option Nat}
  {α : Type}

/-! ## Running a pattern -/

/-- A head further on in the same text. -/
structure Head.Reaches (h h' : Head) : Prop where
  le : h.offset ≤ h'.offset
  sum : h'.offset + h'.after.length = h.offset + h.after.length

namespace Head.Reaches

variable {h h' h'' : Head}

lemma refl (h : Head) : h.Reaches h := ⟨Nat.le_refl _, rfl⟩

lemma trans (h₁ : h.Reaches h') (h₂ : h'.Reaches h'') : h.Reaches h'' :=
  ⟨Nat.le_trans h₁.le h₂.le, h₂.sum.trans h₁.sum⟩

lemma capture (h₁ : h.Reaches h') (captured : List (Nat × Nat × Nat)) :
    h.Reaches { h' with captured := captured } :=
  ⟨h₁.le, h₁.sum⟩

lemma of_advance? {c : CodePoint} (heq : h.advance? = some (c, h')) : h.Reaches h' := by
  obtain ⟨before, after, offset, captured⟩ := h
  cases after with
  | nil => simp [advance?] at heq
  | cons d rest =>
    obtain ⟨-, rfl⟩ := Prod.mk.inj (some.inj heq)
    exact ⟨by simp, by simp [Nat.add_comm, Nat.add_left_comm]⟩

lemma advance (h : Head) (n : Nat) : h.Reaches (h.advance n) := by
  induction n generalizing h with
  | zero => exact refl h
  | succ n ih =>
    rw [Head.advance]
    cases hnext : h.advance? with
    | none => exact refl h
    | some next =>
      obtain ⟨c, h'⟩ := next
      exact (of_advance? hnext).trans (ih h')

end Head.Reaches

/-- A way to match that leaves a head further on. -/
def Matching.IsOnward {α : Type} (m : Matching α) : Prop :=
  ∀ next h a, m next h = some a → ∃ h', Head.Reaches h h' ∧ next h' = some a

/-- What is matched after it goes on from there. -/
lemma Matching.IsOnward.reaches {m : Matching α} (hm : m.IsOnward) {k next : Continuation α} {a : α}
    (hrun : m k h = some a) (hk : ∀ {h'}, k h' = some a → ∃ h'', Head.Reaches h' h'' ∧ next h'' = some a) :
    ∃ h', h.Reaches h' ∧ next h' = some a := by
  obtain ⟨h₁, hreach, hrest⟩ := hm k h a hrun
  obtain ⟨h₂, hreach', hnext⟩ := hk hrest
  exact ⟨h₂, hreach.trans hreach', hnext⟩

/-- The head that is left if nothing is matched after it. -/
lemma Matching.IsOnward.reaches_some {m : Matching Head} (hm : m.IsOnward)
    (hrun : m some h = some h') : h.Reaches h' := by
  obtain ⟨h₁, hreach, hsome⟩ := hm some h h' hrun
  exact some.inj hsome ▸ hreach

/-- The first of two ways to match that succeeds. -/
def firstOf {α : Type} (x y : Option α) : Option α :=
  match x with
  | some a => some a
  | none => y

/-- Two ways to match, of which the one or the other is tried first. -/
def pick {α : Type} (first : Bool) (x y : Option α) : Option α := if first then firstOf x y else firstOf y x

lemma eq_or_eq_of_pick {first : Bool} {x y : Option α} {a : α} (h : pick first x y = some a) :
    x = some a ∨ y = some a := by
  cases first <;> cases x <;> cases y <;> simp_all [pick, firstOf]

section Rounds

variable {α : Type} {round : Matching α} {least : Nat} {most : Option Nat} {next : Continuation α}
  {a : α}

/-- The rounds of a repetition, as few or as many as possible first. -/
def runRounds (few : Bool) (round : Matching α) (least : Nat) (most : Option Nat) (next : Continuation α) :
    Nat → Nat → Option Nat → Head → Option α
  | 0, _, _, h => next h
  | fuel + 1, count, last, h =>
    if count < least then round (runRounds few round least most next fuel (count + 1) last) h
    else
      pick few (next h) <| if roundAllowed most count && last != some h.offset then
        round (runRounds few round least most next fuel (count + 1) (some h.offset)) h else none

/-- Greedy repetition goes on first. -/
lemma runGreedy_eq_runRounds (fuel : Nat) :
    runGreedy round least most next fuel = runRounds false round least most next fuel := by
  induction fuel with
  | zero => rfl
  | succ fuel ih =>
    funext count last h
    rw [runGreedy, runRounds, ih]
    rfl

/-- Lazy repetition stops first. -/
lemma runLazy_eq_runRounds (fuel : Nat) :
    runLazy round least most next fuel = runRounds true round least most next fuel := by
  induction fuel with
  | zero => rfl
  | succ fuel ih =>
    funext count last h
    rw [runLazy, runRounds, ih]
    rfl

/-- A repetition that can be taken back is made of rounds. -/
lemma Pattern.run_times {greed : Greed} (hgreed : greed ≠ .possessive) (p : Pattern) (h : Head) :
    (times greed least most p).run next h =
      runRounds (greed == .lazy) p.run least most next (roundFuel least h) 0 none h := by
  cases greed with
  | greedy => rw [run, runGreedy_eq_runRounds]; rfl
  | lazy => rw [run, runLazy_eq_runRounds]; rfl
  | possessive => exact absurd rfl hgreed

/-- Where rounds lead, if every single one leads there. -/
lemma exists_of_runRounds {R : Head → Head → Prop} (hrefl : ∀ h, R h h)
    (htrans : ∀ {h h' h''}, R h h' → R h' h'' → R h h'')
    (hround : ∀ next h a, round next h = some a → ∃ h', R h h' ∧ next h' = some a) (few : Bool) (fuel : Nat)
    (hrun : runRounds few round least most next fuel count last h = some a) :
    ∃ h', R h h' ∧ next h' = some a := by
  induction fuel generalizing count last h with
  | zero => exact ⟨h, hrefl h, hrun⟩
  | succ fuel ih =>
    -- a round, and then what the others reach
    have hmore : ∀ {last}, round (runRounds few round least most next fuel (count + 1) last) h = some a →
        ∃ h', R h h' ∧ next h' = some a := by
      intro last hone
      obtain ⟨h₁, hfirst, hrest⟩ := hround _ h a hone
      obtain ⟨h₂, hothers, hnext⟩ := ih hrest
      exact ⟨h₂, htrans hfirst hothers, hnext⟩
    rw [runRounds] at hrun
    split_ifs at hrun
    · exact hmore hrun
    · rcases eq_or_eq_of_pick hrun with hrun | hrun
      · exact ⟨h, hrefl h, hrun⟩
      · exact hmore hrun
    · rcases eq_or_eq_of_pick hrun with hrun | hrun
      · exact ⟨h, hrefl h, hrun⟩
      · cases hrun

/-- A possessive repetition leads on. -/
lemma reaches_runPossessive {round : Head → Option Head} {least : Nat} {most : Option Nat}
    (hround : ∀ h h', round h = some h' → h.Reaches h') (fuel : Nat)
    (hrun : runPossessive round least most fuel count last h = some h') : h.Reaches h' := by
  induction fuel generalizing count last h with
  | zero =>
    obtain rfl := some.inj hrun
    exact .refl h
  | succ fuel ih =>
    rw [runPossessive] at hrun
    split_ifs at hrun with hleast hallowed
    · split at hrun
      · rename_i h₁ hone
        exact (hround _ _ hone).trans (ih hrun)
      · simp at hrun
    · split at hrun
      · rename_i h₁ hone
        exact (hround _ _ hone).trans (ih hrun)
      · obtain rfl := some.inj hrun
        exact .refl h
    · obtain rfl := some.inj hrun
      exact .refl h

end Rounds

/-- **Every pattern leaves a head further on** in the same text.

**Proof sketch.** Induction on the pattern. What looks around gives its continuation the head at
which it began, and only the captured part is another. -/
theorem Pattern.run_isOnward (p : Pattern) : ∀ {α : Type}, (p.run : Matching α).IsOnward := by
  induction p with
  | empty => exact fun next h a hrun => ⟨h, .refl h, hrun⟩
  | never => exact fun next h a hrun => by simp [run] at hrun
  | one s =>
    intro α next h a hrun
    simp only [run] at hrun
    split at hrun
    · rename_i c h' hnext
      split_ifs at hrun
      exact ⟨h', .of_advance? hnext, hrun⟩
    · simp at hrun
  | seq p q ihp ihq =>
    intro α next h a hrun
    exact ihp.reaches hrun fun hrest => ihq _ _ a hrest
  | alt p q ihp ihq =>
    intro α next h a hrun
    simp only [run] at hrun
    split at hrun
    · rename_i b hp
      obtain rfl := some.inj hrun
      exact ihp _ h _ hp
    · exact ihq _ h a hrun
  | group number p ih =>
    intro α next h a hrun
    obtain ⟨h', hreach, hnext⟩ := ih _ h a hrun
    exact ⟨_, hreach.capture _, hnext⟩
  | again number rule width =>
    intro α next h a hrun
    simp only [run] at hrun
    split at hrun
    · simp at hrun
    · split_ifs at hrun
      exact ⟨_, .advance h _, hrun⟩
  | ifCaptured number p q ihp ihq =>
    intro α next h a hrun
    simp only [run] at hrun
    split_ifs at hrun
    · exact ihp _ h a hrun
    · exact ihq _ h a hrun
  | times greed least most p ih =>
    intro α next h a hrun
    by_cases hgreed : greed = .possessive
    · subst hgreed
      simp only [run] at hrun
      split at hrun
      · rename_i h' hrounds
        exact ⟨h', reaches_runPossessive (fun _ _ hone => ih.reaches_some hone) _ hrounds, hrun⟩
      · simp at hrun
    · rw [run_times hgreed] at hrun
      exact exists_of_runRounds .refl .trans ih _ _ hrun
  | atomic p ih =>
    intro α next h a hrun
    simp only [run] at hrun
    split at hrun
    · rename_i h' hp
      exact ⟨h', ih.reaches_some hp, hrun⟩
    · simp at hrun
  | place kind =>
    intro α next h a hrun
    simp only [run] at hrun
    split_ifs at hrun
    exact ⟨h, .refl h, hrun⟩
  | ahead wanted p _ | behind wanted p _ =>
    intro α next h a hrun
    simp only [run] at hrun
    split at hrun
    · split_ifs at hrun
      exact ⟨_, (Head.Reaches.refl h).capture _, hrun⟩
    · split_ifs at hrun
      exact ⟨h, .refl h, hrun⟩

/-! ## Hits -/

/-- A hit that begins at an offset and ends before a limit. -/
structure Hit.IsIn (start limit : Nat) (hit : Hit) : Prop where
  start_le : start ≤ hit.start
  le : hit.start ≤ hit.stop
  stop_le : hit.stop ≤ limit

namespace Pattern

variable (p : Pattern)

lemma hitAt_spec {nonEmpty : Bool} (hhit : p.hitAt nonEmpty h = some hit) :
    hit.start = h.offset ∧ hit.IsIn h.offset (h.offset + h.after.length) ∧
      (nonEmpty → hit.start < hit.stop) := by
  obtain ⟨h', hreach, hnext⟩ := p.run_isOnward _ h hit hhit
  have hle := hreach.le
  have hsum := hreach.sum
  split_ifs at hnext with hempty
  obtain rfl := some.inj hnext
  refine ⟨rfl, ⟨Nat.le_refl _, hle, by simp only; omega⟩, ?_⟩
  intro hne
  have hoff : h'.offset ≠ h.offset := by simpa [hne] using hempty
  simp only
  omega

/-- The hits that begin at a head: none, one, or an empty one and another that is not empty. -/
lemma hitsAt_cases (h : Head) :
    p.hitsAt h = [] ∨ (∃ hit, p.hitsAt h = [hit] ∧ p.hitAt false h = some hit) ∨
      ∃ first second, p.hitsAt h = [first, second] ∧ first.stop = first.start ∧
        p.hitAt false h = some first ∧ p.hitAt true h = some second := by
  rw [hitsAt]
  cases hfirst : p.hitAt false h with
  | none => exact .inl rfl
  | some first =>
    by_cases hempty : first.stop = first.start
    · simp only [hempty, if_true]
      cases hsecond : p.hitAt true h with
      | none => exact .inr (.inl ⟨first, rfl, rfl⟩)
      | some second => exact .inr (.inr ⟨first, second, rfl, hempty, rfl, rfl⟩)
    · simp only [hempty, if_false]
      exact .inr (.inl ⟨first, rfl, rfl⟩)

/-- The hits that begin at a head follow each other, and none ends behind the last one. -/
lemma hitsAt_spec (h : Head) :
    (p.hitsAt h).Pairwise (fun a b => a.stop ≤ b.start) ∧
      ∀ hit ∈ p.hitsAt h, hit.IsIn h.offset (h.offset + h.after.length) ∧
        hit.stop ≤ ((p.hitsAt h).getLast?.map Hit.stop).getD 0 := by
  rcases p.hitsAt_cases h with hnil | ⟨hit, hone, hhit⟩ | ⟨first, second, htwo, hempty, hfirst, hsecond⟩
  · simp [hnil]
  · simp [hone, (p.hitAt_spec hhit).2.1]
  · obtain ⟨hs₁, hin₁, -⟩ := p.hitAt_spec hfirst
    obtain ⟨hs₂, hin₂, hlt⟩ := p.hitAt_spec hsecond
    have hlt' := hlt rfl
    rw [htwo]
    refine ⟨by simp; omega, ?_⟩
    intro hit hmem
    rcases mem_pair.mp hmem with rfl | rfl
    · exact ⟨hin₁, by simp; omega⟩
    · exact ⟨hin₂, by simp⟩

/-- The hits from an offset on stand behind what is skipped, lie in the text and follow each other.

**Proof sketch.** Induction on the text. The hits at its beginning end at the end of the last one at
the latest, and the walk goes on there, or one character further on if that one is empty. -/
lemma allHitsFrom_spec (before t : Text) (offset skip : Nat) :
    (p.allHitsFrom before offset skip t).Pairwise (fun a b => a.stop ≤ b.start) ∧
      ∀ hit ∈ p.allHitsFrom before offset skip t, hit.IsIn (offset + skip) (offset + t.length) := by
  induction t generalizing before offset skip with
  | nil =>
    rw [allHitsFrom]
    split_ifs with hskip
    · obtain ⟨hpair, hmem⟩ := p.hitsAt_spec ⟨before, [], offset, []⟩
      subst hskip
      exact ⟨hpair, fun hit hhit => (hmem hit hhit).1⟩
    · simp
  | cons c rest ih =>
    cases skip with
    | succ skip =>
      obtain ⟨hpair, hmem⟩ := ih (c :: before) (offset + 1) skip
      refine ⟨hpair, fun hit hhit => ?_⟩
      obtain ⟨hstart, hle, hstop⟩ := hmem hit hhit
      exact ⟨by omega, hle, by simp only [length_cons]; omega⟩
    | zero =>
      simp only [allHitsFrom]
      set h : Head := ⟨before, c :: rest, offset, []⟩
      set taken := (((p.hitsAt h).getLast?.map fun hit => hit.stop - offset).getD 0) with htaken
      obtain ⟨hpair, hmem⟩ := p.hitsAt_spec h
      obtain ⟨hpair', hmem'⟩ := ih (c :: before) (offset + 1) (taken - 1)
      -- the hits that begin here end where the walk goes on
      have hlast : ((p.hitsAt h).getLast?.map Hit.stop).getD 0 ≤ offset + taken := by
        rw [htaken]
        cases (p.hitsAt h).getLast? with
        | none => simp
        | some hit => simp only [map_some, getD_some]; omega
      refine ⟨pairwise_append.mpr ⟨hpair, hpair', ?_⟩, ?_⟩
      · intro a ha b hb
        have hstop := (hmem a ha).2
        have hstart := (hmem' b hb).start_le
        omega
      · intro hit hhit
        rcases mem_append.mp hhit with hhit | hhit
        · exact (hmem hit hhit).1
        · obtain ⟨hstart, hle, hstop⟩ := hmem' hit hhit
          exact ⟨by omega, hle, by simp only [length_cons]; omega⟩

/-- **The hits of a pattern follow each other.** -/
theorem pairwise_allHits (t : Text) : (p.allHits t).Pairwise fun a b => a.stop ≤ b.start :=
  (p.allHitsFrom_spec [] t 0 0).1

/-- All hits lie in the text. -/
theorem mem_allHits (h : hit ∈ p.allHits t) : hit.IsIn 0 t.length := by
  simpa using (p.allHitsFrom_spec [] t 0 0).2 hit h

end Pattern

/-! ## Phrases -/

lemma Hit.phrase?_eq_some (h : hit.phrase? t = some p) :
    p.start = hit.start ∧ p.stop = hit.stop ∧ p.full = t.slice hit.start hit.stop ∧ t ≠ [] := by
  rw [phrase?] at h
  split at h
  · simp at h
  · rename_i start stop _
    simp only at h
    split_ifs at h with hempty
    obtain rfl := some.inj h
    refine ⟨rfl, rfl, rfl, ?_⟩
    rintro rfl
    simp [Text.slice] at hempty

namespace Delimiter

variable (d : Delimiter) {t : Text}

lemma phrase?_nil : d.phrase? [] = none := by
  rw [phrase?]
  cases d.pattern.firstHit [] with
  | none => rfl
  | some hit =>
    cases hphrase : hit.phrase? [] with
    | none => exact hphrase
    | some p => exact absurd rfl (Hit.phrase?_eq_some hphrase).2.2.2

/-- **The phrases of a text follow each other.** -/
theorem pairwise_phrases (t : Text) : (d.phrases t).Pairwise fun a b => a.stop ≤ b.start := by
  refine (d.pattern.pairwise_allHits t).filterMap _ ?_
  intro a a' hle p hp p' hp'
  rw [(Hit.phrase?_eq_some hp).2.1, (Hit.phrase?_eq_some hp').1]
  exact hle

/-- A phrase quotes the text. -/
theorem mem_phrases (h : p ∈ d.phrases t) : p.stop ≤ t.length ∧ p.full = t.slice p.start p.stop := by
  obtain ⟨hit, hhit, hp⟩ := mem_filterMap.mp h
  obtain ⟨hstart, hstop, hfull, -⟩ := Hit.phrase?_eq_some hp
  rw [hstart, hstop]
  exact ⟨(d.pattern.mem_allHits hhit).stop_le, hfull⟩

/-- No phrase with a key is empty. -/
lemma lt_of_marked (h : p ∈ d.phrases t) (hmarked : (d.phrase? p.full).isSome) : p.start < p.stop := by
  obtain ⟨-, hfull⟩ := d.mem_phrases h
  by_contra hle
  have hnil : p.full = [] := by
    rw [hfull, Text.slice, drop_eq_nil_iff, length_take]
    omega
  rw [hnil, phrase?_nil] at hmarked
  simp at hmarked

/-- The payload of a phrase stands in the text that the phrase is found in. -/
lemma payload_subset_of_hit (h : hit.phrase? t = some p) : p.payload ⊆ t := by
  rw [Hit.phrase?] at h
  split at h
  · cases h
  · simp only at h
    split_ifs at h
    obtain rfl := some.inj h
    exact fun c hc => mem_of_mem_take (mem_of_mem_drop hc)

/-- The payload of a phrase is part of the text. -/
lemma payload_subset (h : p ∈ d.phrases t) : p.payload ⊆ t := by
  obtain ⟨hit, -, hp⟩ := mem_filterMap.mp h
  exact payload_subset_of_hit hp

lemma payload_subset_of_phrase? (h : d.phrase? t = some p) : p.payload ⊆ t := by
  obtain ⟨hit, -, hp⟩ := bind_eq_some_iff.mp h
  exact payload_subset_of_hit hp

end Delimiter

end Phrasebook
