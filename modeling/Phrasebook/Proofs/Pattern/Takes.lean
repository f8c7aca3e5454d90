import Phrasebook.Proofs.Pattern.Hits
import Phrasebook.Proofs.Text.Order
import Phrasebook.Proofs.Text.Slice

/-!
# What a pattern takes

Of the ways in which a pattern can match, the first one counts after which the rest matches. Many
patterns take a text with some property, such as a run of white space, and a sequence of them is read from
left to right: what is found is found behind a text that each of them takes, and something is found if
each of them can take a text.

## Main results

* `Pattern.Takes` — a pattern takes the texts with a property: none that it should not, and it misses none.
* `Pattern.Takes.run`, `Pattern.Takes.seq`, `Pattern.Takes.option` — runs, sequences, and what may be missing.
* `Pattern.exists_of_run_word`, `Pattern.run_again` — words, and what has been captured.
-/

namespace Phrasebook

open List Option

variable {b : Place} {count fuel least number : Nat} {last : Option Nat} {v x : Text}
  {width : Nat × Option Nat}

/-- The head between two parts of a text. -/
def Head.between (u r : Text) (parts : List (Nat × Nat × Nat)) : Head := ⟨u.reverse, r, u.length, parts⟩

/-- The captured part of a text is what stands between its offsets. -/
lemma Hit.part?_eq {hit : Hit} {t u w : Text}
    (hcaptured : hit.captured.lookup number = some (u.length, (u ++ w).length)) (ht : u ++ w <+: t) :
    hit.part? t number = some w := by
  obtain ⟨r, rfl⟩ := ht
  rw [part?, hcaptured]
  exact congrArg some (Text.slice_of_eq (append_assoc ..) rfl length_append)

/-- A set of one character. -/
lemma CharSet.single_holds_iff {c d : CodePoint} : (single .counts c.toNat).holds d ↔ d = c := by
  simp only [holds, single, any_cons, any_nil, SetItem.holds, CaseRule.variants]
  constructor
  · intro h
    apply CodePoint.eq_of_toNat_eq
    simp at h
    omega
  · rintro rfl
    simp

namespace Pattern

variable {α : Type} {next : Continuation α} {a : α} {h : Head} {p q : Pattern} {ps : List Pattern}
  {s : CharSet} {u r w : Text} {parts : List (Nat × Nat × Nat)} {P Q : Text → Prop}

/-- **A pattern that takes the texts with a property**, wherever they stand, and captures nothing. -/
structure Takes (p : Pattern) (P : Text → Prop) : Prop where
  /-- What is found behind the pattern is found behind such a text. -/
  sound : ∀ {α : Type} {next : Continuation α} {u r : Text} {parts : List (Nat × Nat × Nat)} {a : α},
    p.run next (.between u r parts) = some a →
      ∃ w r', P w ∧ r = w ++ r' ∧ next (.between (u ++ w) r' parts) = some a
  /-- Something is found if something is found behind such a text. -/
  complete : ∀ {α : Type} {next : Continuation α} {u w r : Text} {parts : List (Nat × Nat × Nat)},
    P w → (next (.between (u ++ w) r parts)).isSome → (p.run next (.between u (w ++ r) parts)).isSome

lemma run_one_between (c : CodePoint) : (one s).run next (.between u (c :: r) parts) =
    if s.holds c then next (.between (u ++ [c]) r parts) else none := by
  simp [run, Head.advance?, Head.between]

lemma eq_or_eq_of_firstOf {x y : Option α} (h : firstOf x y = some a) : x = some a ∨ y = some a :=
  eq_or_eq_of_pick (show pick true x y = some a from h)

lemma isSome_pick {x y : Option α} (first : Bool) (h : x.isSome ∨ y.isSome) : (pick first x y).isSome := by
  cases first <;> cases x <;> cases y <;> simp_all [pick, firstOf]

/-- A run of characters, as many as are asked for. -/
lemma exists_of_runRounds_one {few : Bool} (hfuel : least ≤ count + fuel)
    (hrun : runRounds few (one s).run least none next fuel count last (.between u r parts) = some a) :
    ∃ w r', (least ≤ count + w.length ∧ ∀ c ∈ w, s.holds c) ∧ r = w ++ r' ∧
      next (.between (u ++ w) r' parts) = some a := by
  have hstop : least ≤ count → next (.between u r parts) = some a → ∃ w r',
      (least ≤ count + w.length ∧ ∀ c ∈ w, s.holds c) ∧ r = w ++ r' ∧
        next (.between (u ++ w) r' parts) = some a := fun hleast hnext =>
    ⟨[], r, ⟨hleast, forall_mem_nil _⟩, rfl, by rwa [append_nil]⟩
  induction fuel generalizing u r count last with
  | zero => exact hstop hfuel hrun
  | succ fuel ih =>
    -- one more character, and then the others
    have hmore : ∀ {last}, (one s).run (runRounds few (one s).run least none next fuel (count + 1) last)
        (.between u r parts) = some a → ∃ w r', (least ≤ count + w.length ∧ ∀ c ∈ w, s.holds c) ∧
          r = w ++ r' ∧ next (.between (u ++ w) r' parts) = some a := by
      intro last hone
      cases r with
      | nil => cases hone
      | cons c r =>
        rw [run_one_between, ite_none_right_eq_some] at hone
        obtain ⟨w, r', ⟨hleast, hw⟩, rfl, hnext⟩ := ih (by omega) hone.2 fun hleast hnext =>
          ⟨[], r, ⟨hleast, forall_mem_nil _⟩, rfl, by rwa [append_nil]⟩
        refine ⟨c :: w, r', ⟨by rw [length_cons]; omega, forall_mem_cons.mpr ⟨hone.1, hw⟩⟩, rfl, ?_⟩
        rwa [append_assoc] at hnext
    rw [runRounds] at hrun
    split_ifs at hrun with hcount
    · exact hmore hrun
    all_goals rcases eq_or_eq_of_pick hrun with hrun | hrun
    · exact hstop (by omega) hrun
    · exact hmore hrun
    · exact hstop (by omega) hrun
    · cases hrun

/-- No run of characters is missed. -/
lemma isSome_runRounds_one (few : Bool) (hfuel : w.length ≤ fuel)
    (hlast : ∀ l ∈ last, l < u.length) (hleast : least ≤ count + w.length) (hw : ∀ c ∈ w, s.holds c)
    (hnext : (next (.between (u ++ w) r parts)).isSome) :
    (runRounds few (one s).run least none next fuel count last (.between u (w ++ r) parts)).isSome := by
  induction w generalizing u fuel count last with
  | nil =>
    rw [append_nil] at hnext
    cases fuel with
    | zero => exact hnext
    | succ fuel =>
      rw [runRounds, if_neg (by simpa using hleast)]
      exact isSome_pick few (.inl hnext)
  | cons c w ih =>
    obtain ⟨hc, hw⟩ := forall_mem_cons.mp hw
    obtain ⟨fuel, rfl⟩ := Nat.exists_eq_add_of_le' (lt_of_lt_of_le (Nat.succ_pos _) hfuel)
    rw [length_cons] at hfuel hleast
    have hothers : ∀ {last}, (∀ l ∈ last, l < u.length + 1) →
        ((one s).run (runRounds few (one s).run least none next fuel (count + 1) last)
          (.between u (c :: w ++ r) parts)).isSome := by
      intro last hlast
      rw [cons_append, run_one_between, if_pos hc]
      exact ih (by omega) (by simpa using hlast) (by omega) hw (by rwa [append_assoc])
    rw [runRounds]
    split_ifs with hcount hallowed
    · exact hothers fun l hl => Nat.lt_succ_of_lt (hlast l hl)
    · exact isSome_pick few (.inr (hothers fun l hl => some.inj hl ▸ Nat.lt_succ_self _))
    · refine absurd (bne_iff_ne.mpr fun hl => ?_) hallowed
      exact lt_irrefl _ (hlast _ hl)

namespace Takes

/-- A pattern takes what is described in other words. -/
lemma congr (hp : p.Takes P) (h : ∀ w, P w ↔ Q w) : p.Takes Q := by
  obtain rfl : P = Q := funext fun w => propext (h w)
  exact hp

/-- One character. -/
lemma one : (one s).Takes fun w => ∃ c, w = [c] ∧ s.holds c where
  sound {_ next u r parts a} hrun := by
    cases r with
    | nil => cases hrun
    | cons c r =>
      rw [run_one_between, ite_none_right_eq_some] at hrun
      exact ⟨[c], r, ⟨c, rfl, hrun.1⟩, rfl, hrun.2⟩
  complete := by
    rintro _ next u _ r parts ⟨c, rfl, hc⟩ hnext
    rwa [singleton_append, run_one_between, if_pos hc]

/-- A run of characters. -/
lemma run {greed : Greed} (hgreed : greed ≠ .possessive) (least : Nat) :
    (times greed least none (Pattern.one s)).Takes fun w => least ≤ w.length ∧ ∀ c ∈ w, s.holds c where
  sound hrun := by
    rw [run_times hgreed] at hrun
    simpa only [Nat.zero_add] using exists_of_runRounds_one (by rw [roundFuel]; omega) hrun
  complete {_ next u w r parts} hw hnext := by
    rw [run_times hgreed]
    refine isSome_runRounds_one _ ?_ (by simp) (by simpa using hw.1) hw.2 hnext
    simp [roundFuel, Head.between]
    omega

/-- One text and then another. -/
lemma seq (hp : p.Takes P) (hq : q.Takes Q) :
    (seq p q).Takes fun w => ∃ v v', P v ∧ Q v' ∧ w = v ++ v' where
  sound hrun := by
    obtain ⟨v, r', hv, rfl, hrest⟩ := hp.sound hrun
    obtain ⟨v', r'', hv', rfl, hnext⟩ := hq.sound hrest
    exact ⟨v ++ v', r'', ⟨v, v', hv, hv', rfl⟩, (append_assoc ..).symm, by rwa [← append_assoc]⟩
  complete := by
    rintro _ next u _ r parts ⟨v, v', hv, hv', rfl⟩ hnext
    rw [append_assoc]
    exact hp.complete hv (hq.complete hv' (by rwa [append_assoc]))

end Takes

/-- What may be missing is left out if nothing is found with it. -/
lemma run_option : (times .greedy 0 (some 1) p).run next h = firstOf (p.run next h) (next h) := by
  have hrest : ∀ fuel last, runGreedy p.run 0 (some 1) next (fuel + 1) 1 last = next := by
    intro fuel last
    funext h
    simp [runGreedy, roundAllowed]
  rw [Pattern.run, roundFuel, runGreedy, if_neg (Nat.not_lt_zero 0), hrest]
  rfl

lemma Takes.option (hp : p.Takes P) : (times .greedy 0 (some 1) p).Takes fun w => w = [] ∨ P w where
  sound {_ next u r parts a} hrun := by
    rw [run_option] at hrun
    rcases eq_or_eq_of_firstOf hrun with hrun | hnext
    · obtain ⟨w, r', hw, hrest⟩ := hp.sound hrun
      exact ⟨w, r', .inr hw, hrest⟩
    · exact ⟨[], r, .inl rfl, rfl, by rwa [append_nil]⟩
  complete := by
    rintro _ next u w r parts (rfl | hw) hnext <;> rw [run_option]
    · rw [append_nil] at hnext
      exact isSome_pick true (.inr hnext)
    · exact isSome_pick true (.inl (hp.complete hw hnext))

/-! ## Sequences -/

/-- What is matched at the beginning of a text. -/
lemma match?_eq (p : Pattern) (t : Text) :
    p.match? t = p.run (fun h => some ⟨0, h.offset, h.captured⟩) (.between [] t []) := rfl

/-- A place takes nothing. -/
lemma run_place : (place b).run next h = some a ↔ h.isAt b ∧ next h = some a :=
  ite_none_right_eq_some

lemma isSome_run_place (hat : h.isAt b) (hnext : (next h).isSome) : ((place b).run next h).isSome := by
  rwa [Pattern.run, if_pos hat]

lemma run_ofList_nil : (ofList []).run next = next := rfl

lemma run_ofList_cons : (ofList (p :: ps)).run next = p.run ((ofList ps).run next) := by
  cases ps <;> rfl

/-- A captured part. -/
lemma Takes.group_sound (hp : p.Takes P)
    (hrun : (group number p).run next (.between u r parts) = some a) : ∃ w r', P w ∧ r = w ++ r' ∧
      next (.between (u ++ w) r' ((number, u.length, (u ++ w).length) :: parts)) = some a :=
  hp.sound hrun

/-- A group captures what its pattern takes. -/
lemma Takes.group_complete (hp : p.Takes P) (hw : P w)
    (hnext : (next (.between (u ++ w) r ((number, u.length, (u ++ w).length) :: parts))).isSome) :
    ((group number p).run next (.between u (w ++ r) parts)).isSome :=
  hp.complete hw hnext

/-- The characters of a word, one after the other. -/
def ofWord (word : Text) : List Pattern := word.map fun c => one (.single .counts c.toNat)

/-- A word is found if it stands there. -/
lemma run_word_append : (ofList (ofWord w ++ ps)).run next (.between u (w ++ r) parts) =
    (ofList ps).run next (.between (u ++ w) r parts) := by
  induction w generalizing u with
  | nil => rw [append_nil]; rfl
  | cons c w ih =>
    have hstep : ofWord (c :: w) ++ ps = one (.single .counts c.toNat) :: (ofWord w ++ ps) := rfl
    rw [hstep, run_ofList_cons, cons_append, run_one_between, if_pos (CharSet.single_holds_iff.mpr rfl), ih,
      append_assoc]
    rfl

/-- A word is matched. -/
lemma isSome_run_word (hnext : ((ofList ps).run next (.between (u ++ w) r parts)).isSome) :
    ((ofList (ofWord w ++ ps)).run next (.between u (w ++ r) parts)).isSome := by
  rwa [run_word_append]

/-- What a word matches begins with it. -/
lemma exists_of_run_word (hrun : (ofList (ofWord w ++ ps)).run next (.between u r parts) = some a) :
    ∃ r', r = w ++ r' ∧ (ofList ps).run next (.between (u ++ w) r' parts) = some a := by
  suffices hword : ∃ r', r = w ++ r' by
    obtain ⟨r', rfl⟩ := hword
    exact ⟨r', rfl, run_word_append ▸ hrun⟩
  induction w generalizing u r with
  | nil => exact ⟨r, rfl⟩
  | cons c w ih =>
    have hstep : ofWord (c :: w) ++ ps = one (.single .counts c.toNat) :: (ofWord w ++ ps) := rfl
    rw [hstep, run_ofList_cons] at hrun
    obtain ⟨_, r', ⟨d, rfl, hd⟩, rfl, hrest⟩ := Takes.one.sound hrun
    obtain rfl := CharSet.single_holds_iff.mp hd
    obtain ⟨r'', rfl⟩ := ih hrest
    exact ⟨r'', rfl⟩

/-- What has been captured stands there again. -/
lemma run_again (hlookup : parts.lookup number = some (v.length, (v ++ w).length)) :
    (again number .counts width).run next (.between (v ++ w ++ x) r parts) = some a ↔
      ∃ r', r = w ++ r' ∧ next (.between (v ++ w ++ x ++ w) r' parts) = some a := by
  have htext : (Head.between (v ++ w ++ x) r parts).capturedText? number = some w := by
    rw [Head.capturedText?, Head.between, hlookup, map_some, reverse_reverse]
    refine congrArg some (Text.slice_of_eq (r := x ++ r) ?_ rfl length_append)
    simp only [append_assoc]
  have hsame : ∀ t : Text, sameText .counts t w ↔ t = w := by
    have hid : CaseRule.counts.lower = id := rfl
    simp [sameText, hid]
  have hadvance : ∀ {u r w : Text}, (Head.between u (w ++ r) parts).advance w.length =
      .between (u ++ w) r parts := by
    intro u r w
    induction w generalizing u with
    | nil => rw [append_nil]; rfl
    | cons c w ih =>
      have hstep : (Head.between u (c :: w ++ r) parts).advance (c :: w).length =
          (Head.between (u ++ [c]) (w ++ r) parts).advance w.length := by
        simp [Head.between, Head.advance, Head.advance?]
      rw [hstep, ih, append_assoc]
      rfl
  simp only [Pattern.run, htext, hsame, ite_none_right_eq_some]
  constructor
  · rintro ⟨htake, hnext⟩
    obtain ⟨r', rfl⟩ : w <+: r := prefix_iff_eq_take.mpr htake.symm
    exact ⟨r', rfl, hadvance ▸ hnext⟩
  · rintro ⟨r', rfl, hnext⟩
    exact ⟨take_left, by rwa [hadvance]⟩

/-- What was captured is matched again. -/
lemma isSome_run_again (hlookup : parts.lookup number = some (v.length, (v ++ w).length))
    (hnext : (next (.between (v ++ w ++ x ++ w) r parts)).isSome) :
    ((again number .counts width).run next (.between (v ++ w ++ x) (w ++ r) parts)).isSome := by
  obtain ⟨a, ha⟩ := isSome_iff_exists.mp hnext
  exact isSome_iff_exists.mpr ⟨a, (run_again hlookup).mpr ⟨r, rfl, ha⟩⟩

end Pattern

end Phrasebook
