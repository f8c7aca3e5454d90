import Mathlib.Data.List.Pairwise
import Phrasebook.Proofs.Pattern.Hits
import Phrasebook.Proofs.Text.Slice

/-!
# Patterns that look at nothing else

A pattern without places, without looking around, without references and without possessive or atomic
parts looks at nothing but the characters that it takes. Of the ways in which it can match in a part of a
text, those that leave the part are missing, and the first of the others is the first again.

## Main results

* `Delimiter.mem_allHits_of_part` — the hits in a part of a text are those in the whole that stay in it.
* `Delimiter.isSilent_between` — what is left when the phrases of a text are taken out has no phrases.
-/

namespace Phrasebook

open List Option

variable {g g' h : Head} {hit : Hit} {a b count fuel limit shift low offset skip : Nat}
  {last : Option Nat} {p : Pattern} {before t : Text} {next next' : Continuation Hit}

/-- Whether a pattern looks at nothing but the characters that it takes. -/
def Pattern.isPlain : Pattern → Bool
  | empty | never | one _ => true
  | seq p q | alt p q => p.isPlain && q.isPlain
  | group _ p => p.isPlain
  | times greed _ _ p => greed != .possessive && p.isPlain
  | again _ _ _ | ifCaptured _ _ _ | atomic _ | place _ | ahead _ _ | behind _ _ => false

/-! ## The same place in a part and in the whole -/

/-- A captured part further on. -/
def shiftCapture (n : Nat) (part : Nat × Nat × Nat) : Nat × Nat × Nat :=
  (part.1, part.2.1 + n, part.2.2 + n)

/-- `g.IsPartOf shift limit h`: the head `g` in a part of a text is at the place of the head `h` in the
whole text; the part begins at `shift` and ends at `limit`. -/
structure Head.IsPartOf (shift limit : Nat) (g h : Head) : Prop where
  after : ∃ r, h.after = g.after ++ r
  /-- The offset in the part is that from its beginning. -/
  offset : h.offset = g.offset + shift
  limit : h.offset + g.after.length = limit
  captured : h.captured = g.captured.map (shiftCapture shift)

/-- A hit further on. -/
def Hit.shifted (n : Nat) (hit : Hit) : Hit :=
  ⟨hit.start + n, hit.stop + n, hit.captured.map (shiftCapture n)⟩

/-- `Agree shift limit x y`: `x` has been found in a text, and `y` in a part of it. If `x` is nothing, so
is `y`; and if it stays in the part, `y` is the same. -/
structure Agree (shift limit : Nat) (x y : Option Hit) : Prop where
  /-- Nothing is found in the part if nothing is found. -/
  none : x = none → y = none
  some : ∀ hit, x = some hit → hit.stop ≤ limit → ∃ hit', y = some hit' ∧ hit = hit'.shifted shift

namespace Agree

variable {shift limit : Nat} {x x' y y' : Option Hit}

lemma nothing : Agree shift limit Option.none Option.none :=
  ⟨fun _ => rfl, fun _ h => by cases h⟩

/-- First choices agree if both sides do. -/
lemma firstOf (hx : Agree shift limit x y) (hx' : Agree shift limit x' y') :
    Agree shift limit (Phrasebook.firstOf x x') (Phrasebook.firstOf y y') := by
  cases hcase : x with
  | none =>
    rw [hx.none hcase]
    exact hx'
  | some hit =>
    refine ⟨fun h => (by cases h), fun hit' h hle => ?_⟩
    obtain rfl := some.inj h
    obtain ⟨found, rfl, heq⟩ := hx.some hit hcase hle
    exact ⟨found, rfl, heq⟩

lemma pick (first : Bool) (hx : Agree shift limit x y) (hx' : Agree shift limit x' y') :
    Agree shift limit (Phrasebook.pick first x x') (Phrasebook.pick first y y') := by
  cases first
  · exact hx'.firstOf hx
  · exact hx.firstOf hx'

lemma pick_none (first : Bool) (hx : Agree shift limit x y) :
    Agree shift limit (Phrasebook.pick first x Option.none) y := by
  cases first <;> cases x <;> exact hx

end Agree

/-- `Agrees shift limit low next next'`: what comes after a pattern agrees in a text and in a part of it,
for all places of the part from `low` on. -/
structure Agrees (shift limit low : Nat) (next next' : Continuation Hit) : Prop where
  /-- Beyond the part nothing is found that stays in it. -/
  beyond : ∀ h hit, limit < h.offset → next h = some hit → limit < hit.stop
  within : ∀ h g, Head.IsPartOf shift limit g h → low ≤ g.offset →
    Agree shift limit (next h) (next' g)

/-- A way to match that keeps this. -/
def Matching.IsLocal (m : Matching Hit) : Prop :=
  ∀ {shift limit low : Nat} {next next' : Continuation Hit}, Agrees shift limit low next next' →
    Agrees shift limit low (m next) (m next')

namespace Agrees

variable {shift limit low : Nat} {next next' : Continuation Hit}

/-- A way to match that leaves a head further on finds nothing in the part from beyond it. -/
lemma beyond_of_isOnward (hnext : Agrees shift limit low next next')
    (hreach : ∃ h', h.Reaches h' ∧ next h' = some hit) (hlimit : limit < h.offset) : limit < hit.stop := by
  obtain ⟨h', hle, hfound⟩ := hreach
  exact hnext.beyond h' hit (lt_of_lt_of_le hlimit hle.le) hfound

end Agrees

/-! ## Repetitions -/

section Rounds

variable {shift limit low : Nat} {next next' : Continuation Hit} {round : Matching Hit} {least : Nat}
  {most : Option Nat}

/-- How many rounds a repetition can still take at a head. -/
def roundsLeft (least count : Nat) (last : Option Nat) (g : Head) : Nat :=
  least - count + g.after.length + if least ≤ count ∧ last = some g.offset then 0 else 1

lemma roundsLeft_le (least : Nat) (g : Head) : roundsLeft least 0 none g ≤ roundFuel least g := by
  rw [roundsLeft, roundFuel]
  split_ifs <;> omega

lemma roundsLeft_eq_zero (h : roundsLeft least count last g = 0) : least ≤ count ∧ last = some g.offset := by
  rw [roundsLeft] at h
  by_contra hnot
  rw [if_neg hnot] at h
  omega

lemma roundsLeft_of_lt (hlt : count < least) (hfuel : roundsLeft least count last g ≤ fuel + 1)
    (hlen : g'.after.length ≤ g.after.length) : roundsLeft least (count + 1) last g' ≤ fuel := by
  rw [roundsLeft, if_neg (by omega)] at hfuel
  rw [roundsLeft]
  split_ifs <;> omega

/-- A round has been made that was not due: it has taken something, or no other follows it. -/
lemma roundsLeft_of_le (hle : least ≤ count) (hlast : last ≠ some g.offset)
    (hfuel : roundsLeft least count last g ≤ fuel + 1) (hoffset : g.offset ≤ g'.offset)
    (hsum : g'.offset + g'.after.length = g.offset + g.after.length) :
    roundsLeft least (count + 1) (some g.offset) g' ≤ fuel := by
  rw [roundsLeft, if_neg (fun h => hlast h.2)] at hfuel
  rw [roundsLeft]
  by_cases hsame : g.offset = g'.offset
  · rw [if_pos ⟨by omega, congrArg some hsame⟩]
    omega
  · rw [if_neg fun h => hsame (some.inj h.2)]
    omega

/-- Two heads of the part stand in one text. -/
lemma Head.IsPartOf.sum {h' : Head} (hg : Head.IsPartOf shift limit g h)
    (hg' : Head.IsPartOf shift limit g' h') : g'.offset + g'.after.length = g.offset + g.after.length := by
  have h₁ := hg.offset
  have h₂ := hg.limit
  have h₃ := hg'.offset
  have h₄ := hg'.limit
  omega

/-- The last round began at the same place. -/
lemma last_ne_iff (hpart : Head.IsPartOf shift limit g h) (last : Option Nat) :
    (last.map (· + shift) != some h.offset) = (last != some g.offset) := by
  rw [hpart.offset]
  cases last with
  | none => rfl
  | some n => simp [bne, map_some]

/-- Rounds of a repetition: the fuel of the part is enough there, and so is that of the whole text. -/
lemma agree_runRounds (few : Bool) (hround : round.IsLocal) (honward : round.IsOnward)
    (hnext : Agrees shift limit low next next') (fuel' : Nat) (hle : fuel' ≤ fuel)
    (hpart : Head.IsPartOf shift limit g h) (hlow : low ≤ g.offset)
    (hfuel : roundsLeft least count last g ≤ fuel') :
    Agree shift limit (runRounds few round least most next fuel count (last.map (· + shift)) h)
      (runRounds few round least most next' fuel' count last g) := by
  induction fuel' generalizing fuel count last g h with
  | zero =>
    -- no round is due, and none is allowed: both go on with what comes after
    obtain ⟨hdone, hlast⟩ := roundsLeft_eq_zero (Nat.le_zero.mp hfuel)
    cases fuel with
    | zero => exact hnext.within h g hpart hlow
    | succ fuel =>
      have hover : ¬ (roundAllowed most count && last.map (· + shift) != some h.offset) := by
        rw [last_ne_iff hpart, hlast]
        simp
      rw [runRounds, runRounds, if_neg (not_lt.mpr hdone), if_neg hover]
      exact (hnext.within h g hpart hlow).pick_none few
  | succ fuel' ih =>
    obtain ⟨fuel, rfl⟩ : ∃ n, fuel = n + 1 := ⟨fuel - 1, by omega⟩
    -- what follows a round agrees from here on, whichever way the rounds are counted
    have hmore : ∀ {count' : Nat} {last' : Option Nat},
        (∀ g' h', Head.IsPartOf shift limit g' h' → g.offset ≤ g'.offset →
          roundsLeft least count' last' g' ≤ fuel') →
        Agree shift limit
          (round (runRounds few round least most next fuel count' (last'.map (· + shift))) h)
          (round (runRounds few round least most next' fuel' count' last') g) := by
      intro count' last' hleft
      have hrest : Agrees shift limit g.offset
          (runRounds few round least most next fuel count' (last'.map (· + shift)))
          (runRounds few round least most next' fuel' count' last') := by
        refine ⟨fun h' hit hlimit hrun => ?_, fun h' g' hpart' hoffset => ?_⟩
        · exact hnext.beyond_of_isOnward (exists_of_runRounds .refl .trans honward few fuel hrun) hlimit
        · exact ih (by omega) hpart' (hlow.trans hoffset) (hleft g' h' hpart' hoffset)
      exact (hround hrest).within h g hpart (le_refl _)
    rw [runRounds, runRounds]
    by_cases hdue : count < least
    · rw [if_pos hdue, if_pos hdue]
      refine hmore fun g' h' hpart' hoffset => roundsLeft_of_lt hdue hfuel ?_
      have hsum := hpart.sum hpart'
      omega
    · rw [if_neg hdue, if_neg hdue, last_ne_iff hpart]
      refine Agree.pick few (hnext.within h g hpart hlow) ?_
      by_cases hallowed : (roundAllowed most count && last != some g.offset)
      · rw [if_pos hallowed, if_pos hallowed, hpart.offset]
        refine @hmore (count + 1) (some g.offset) fun g' h' hpart' hoffset => ?_
        have hlast : last ≠ some g.offset := by
          simpa using (Bool.and_eq_true_iff.mp hallowed).2
        exact roundsLeft_of_le (not_lt.mp hdue) hlast hfuel hoffset (hpart.sum hpart')
      · rw [if_neg hallowed, if_neg hallowed]
        exact .nothing

end Rounds

/-! ## Plain patterns -/

/-- Beyond the part no pattern finds what stays in it. -/
lemma Pattern.agrees_run
    (hnext : Agrees shift limit low next next')
    (hwithin : ∀ h g, Head.IsPartOf shift limit g h → low ≤ g.offset →
      Agree shift limit (p.run next h) (p.run next' g)) :
    Agrees shift limit low (p.run next) (p.run next') :=
  ⟨fun h hit hlimit hrun => hnext.beyond_of_isOnward (p.run_isOnward _ h hit hrun) hlimit, hwithin⟩

/-- One character: in the part, or the first one beyond it. -/
lemma Pattern.agree_run_one {s : CharSet} (hnext : Agrees shift limit low next next')
    (hpart : Head.IsPartOf shift limit g h) (hlow : low ≤ g.offset) :
    Agree shift limit ((one s).run next h) ((one s).run next' g) := by
  obtain ⟨r, hafter⟩ := hpart.after
  have hoffset := hpart.offset
  have hlimit := hpart.limit
  cases hg : g.after with
  | nil =>
    rw [hg, length_nil] at hlimit
    have hnone : (one s).run next' g = none := by simp [run, Head.advance?, hg]
    rw [hnone]
    refine ⟨fun _ => rfl, fun hit hrun hle => ?_⟩
    simp only [run] at hrun
    split at hrun
    · rename_i c h' hadvance
      split_ifs at hrun
      have hlt : limit < h'.offset := by
        rw [Head.advance?] at hadvance
        split at hadvance
        · cases hadvance
        · obtain ⟨-, rfl⟩ := Prod.mk.inj (some.inj hadvance)
          simp only
          omega
      have := hnext.beyond h' hit hlt hrun
      omega
    · cases hrun
  | cons c rest =>
    rw [hg, cons_append] at hafter
    rw [hg, length_cons] at hlimit
    simp only [run, Head.advance?, hg, hafter]
    split_ifs
    · refine hnext.within _ _ ⟨⟨r, rfl⟩, ?_, ?_, hpart.captured⟩ ?_
      · simp only
        omega
      · simp only
        omega
      · simp only
        omega
    · exact .nothing

/-- **A plain pattern finds in a part of a text what it finds in the whole**, if that stays there.

**Proof sketch.** Induction on the pattern, for all that can come after it. -/
theorem Pattern.isLocal_run (hplain : p.isPlain) : (p.run : Matching Hit).IsLocal := by
  induction p with
  | empty => exact fun hnext => hnext
  | never => exact fun hnext => agrees_run hnext fun h g _ _ => .nothing
  | one s =>
    exact fun hnext => agrees_run hnext fun h g hpart hlow => agree_run_one hnext hpart hlow
  | seq p q ihp ihq =>
    obtain ⟨hp, hq⟩ := Bool.and_eq_true_iff.mp hplain
    exact fun hnext => ihp hp (ihq hq hnext)
  | alt p q ihp ihq =>
    obtain ⟨hp, hq⟩ := Bool.and_eq_true_iff.mp hplain
    refine fun hnext => agrees_run hnext fun h g hpart hlow => ?_
    exact ((ihp hp hnext).within h g hpart hlow).firstOf ((ihq hq hnext).within h g hpart hlow)
  | group number p ih =>
    intro shift limit low next next' hnext
    refine agrees_run hnext fun h g hpart hlow => (ih hplain ⟨?_, ?_⟩).within h g hpart hlow
    · exact fun h' hit hlimit hrun =>
        hnext.beyond { h' with captured := (number, h.offset, h'.offset) :: h'.captured } hit hlimit hrun
    · intro h' g' hpart' hlow'
      refine hnext.within _ _ ⟨hpart'.after, hpart'.offset, hpart'.limit, ?_⟩ hlow'
      simp [shiftCapture, hpart.offset, hpart'.offset, hpart'.captured]
  | times greed least most p ih =>
    obtain ⟨hgreed, hp⟩ := Bool.and_eq_true_iff.mp hplain
    refine fun hnext => agrees_run hnext fun h g hpart hlow => ?_
    have hfuel : roundFuel least g ≤ roundFuel least h := by
      obtain ⟨r, hafter⟩ := hpart.after
      rw [roundFuel, roundFuel, hafter, length_append]
      omega
    rw [run_times (by simpa using hgreed), run_times (by simpa using hgreed)]
    exact agree_runRounds _ (ih hp) p.run_isOnward hnext _ hfuel hpart hlow (roundsLeft_le least g)
  | again | ifCaptured | atomic | place | ahead | behind => simp [isPlain] at hplain

/-! ## Hits in a part -/

/-- Hits agree in the part and in the whole. -/
lemma Pattern.agree_hitAt (hplain : p.isPlain) (nonEmpty : Bool) (hpart : Head.IsPartOf shift limit g h) :
    Agree shift limit (p.hitAt nonEmpty h) (p.hitAt nonEmpty g) := by
  have hnext : Agrees shift limit 0
      (fun h' => if nonEmpty && h'.offset == h.offset then none
        else some ⟨h.offset, h'.offset, h'.captured⟩)
      (fun g' => if nonEmpty && g'.offset == g.offset then none
        else some ⟨g.offset, g'.offset, g'.captured⟩) := by
    constructor
    · intro h' hit hlimit hfound
      split_ifs at hfound
      obtain rfl := some.inj hfound
      exact hlimit
    · intro h' g' hpart' _
      have hsame : (h'.offset == h.offset) = (g'.offset == g.offset) := by
        rw [hpart.offset, hpart'.offset]
        simp
      rw [hsame]
      split_ifs
      · exact .nothing
      · refine ⟨fun hnone => (by cases hnone), fun hit hfound _ => ⟨_, rfl, ?_⟩⟩
        obtain rfl := some.inj hfound
        rw [Hit.shifted, hpart.offset, hpart'.offset, hpart'.captured]
  exact (isLocal_run hplain hnext).within h g hpart (Nat.zero_le _)

/-- The hits at a place of a part, if those of the whole text stay in the part. -/
lemma Pattern.hitsAt_part (hplain : p.isPlain) (hpart : Head.IsPartOf shift limit g h)
    (hstay : ∀ hit ∈ p.hitsAt h, hit.stop ≤ limit) : p.hitsAt h = (p.hitsAt g).map (Hit.shifted shift) := by
  have hany := agree_hitAt hplain false hpart
  have hmore := agree_hitAt hplain true hpart
  rw [hitsAt] at hstay ⊢
  rw [hitsAt]
  cases hfirst : p.hitAt false h with
  | none =>
    rw [hany.none hfirst]
    rfl
  | some first =>
    rw [hfirst] at hstay
    have hle : first.stop ≤ limit := by
      refine hstay first ?_
      simp only
      split_ifs <;> exact mem_cons_self
    obtain ⟨first', hfirst', rfl⟩ := hany.some first hfirst hle
    rw [hfirst']
    have hempty : (first'.shifted shift).stop = (first'.shifted shift).start ↔
        first'.stop = first'.start := by
      simp [Hit.shifted]
    simp only [hempty] at hstay ⊢
    by_cases hcase : first'.stop = first'.start
    · rw [if_pos hcase] at hstay ⊢
      rw [if_pos hcase]
      cases hsecond : p.hitAt true h with
      | none =>
        rw [hmore.none hsecond]
        rfl
      | some second =>
        rw [hsecond] at hstay
        obtain ⟨second', hsecond', rfl⟩ := hmore.some second hsecond (hstay second (by simp))
        rw [hsecond']
        rfl
    · rw [if_neg hcase, if_neg hcase]
      rfl

/-- A hit in a part is one in the whole text, or an empty one at the end of the part. Here `w` is
the part and `v` is what follows it, and no hit of the whole text leads out of the part.

**Proof sketch.** Induction on the part. As long as the part goes on, the hits at each place are the
same, so that the walks through both go on in the same way. -/
lemma Pattern.mem_allHitsFrom_part (hplain : p.isPlain) {v : Text} {w before' : Text}
    (hstay : ∀ hit ∈ p.allHitsFrom before (offset + shift) skip (w ++ v),
      hit.start < offset + shift + w.length → hit.stop ≤ offset + shift + w.length) :
    ∀ hit ∈ p.allHitsFrom before' offset skip w,
      hit.shifted shift ∈ p.allHitsFrom before (offset + shift) skip (w ++ v) ∨
        hit.stop = hit.start := by
  induction w generalizing before before' offset skip with
  | nil =>
    intro hit hhit
    right
    have hin := ((p.allHitsFrom_spec before' [] offset skip).2 hit hhit)
    have h₁ := hin.start_le
    have h₂ := hin.le
    have h₃ := hin.stop_le
    simp only [length_nil] at h₃
    omega
  | cons c w ih =>
    have hlen : offset + shift + (c :: w).length = offset + 1 + shift + w.length := by
      simp only [length_cons]
      omega
    rw [hlen] at hstay
    cases skip with
    | succ skip =>
      rw [cons_append, allHitsFrom, show offset + shift + 1 = offset + 1 + shift by omega] at hstay
      intro hit hhit
      rw [cons_append, allHitsFrom, show offset + shift + 1 = offset + 1 + shift by omega]
      exact ih hstay hit hhit
    | zero =>
      set h : Head := ⟨before, c :: (w ++ v), offset + shift, []⟩ with hh
      set g : Head := ⟨before', c :: w, offset, []⟩ with hg
      have hpart : Head.IsPartOf shift (offset + 1 + shift + w.length) g h := by
        refine ⟨⟨v, rfl⟩, rfl, ?_, rfl⟩
        simp only [hh, hg, length_cons]
        omega
      have hhere : ∀ hit ∈ p.hitsAt h, hit.stop ≤ offset + 1 + shift + w.length := by
        intro hit hhit
        refine hstay hit ?_ ?_
        · rw [cons_append, allHitsFrom]
          exact mem_append_left _ hhit
        · have hstart : hit.start = offset + shift := by
            rcases p.hitsAt_cases h with hnil | ⟨one, hone, hfound⟩ | ⟨a, b, htwo, -, ha, hb⟩
            · rw [hnil] at hhit
              exact absurd hhit not_mem_nil
            · rw [hone, mem_singleton] at hhit
              exact hhit ▸ (p.hitAt_spec hfound).1
            · rw [htwo] at hhit
              rcases mem_pair.mp hhit with rfl | rfl
              · exact (p.hitAt_spec ha).1
              · exact (p.hitAt_spec hb).1
          omega
      have hsame := hitsAt_part hplain hpart hhere
      -- the last hit ends at the same place, so the walks skip the same
      have htaken : (((p.hitsAt h).getLast?.map fun hit => hit.stop - (offset + shift)).getD 0) =
          (((p.hitsAt g).getLast?.map fun hit => hit.stop - offset).getD 0) := by
        rw [hsame, getLast?_map]
        cases (p.hitsAt g).getLast? with
        | none => rfl
        | some hit =>
          simp only [map_some, getD_some, Hit.shifted]
          omega
      intro hit hhit
      rw [allHitsFrom] at hhit
      rw [cons_append, allHitsFrom] at hstay ⊢
      simp only [← hh, ← hg, htaken] at hstay hhit ⊢
      rw [show offset + shift + 1 = offset + 1 + shift by omega] at hstay ⊢
      rcases mem_append.mp hhit with hhit | hhit
      · left
        rw [hsame]
        exact mem_append_left _ (mem_map_of_mem hhit)
      · rcases ih (fun hit hmem => hstay hit (mem_append_right _ hmem)) hit hhit with hmem | hempty
        · exact .inl (mem_append_right _ hmem)
        · exact .inr hempty

lemma Pattern.allHitsFrom_skip (p : Pattern) (before u v : Text) (offset : Nat) :
    p.allHitsFrom before offset u.length (u ++ v) =
      p.allHitsFrom (u.reverse ++ before) (offset + u.length) 0 v := by
  induction u generalizing before offset with
  | nil => rfl
  | cons c u ih =>
    rw [length_cons, cons_append, allHitsFrom, ih, reverse_cons, append_assoc,
      show offset + 1 + u.length = offset + (u.length + 1) by omega]
    rfl

/-- Behind a hit that is not empty the walk begins anew. -/
lemma Pattern.exists_allHitsFrom_after (p : Pattern)
    (hhit : hit ∈ p.allHitsFrom before offset skip t) (hlt : hit.start < hit.stop) :
    ∃ before', p.allHitsFrom before' hit.stop 0 (t.drop (hit.stop - offset)) ⊆
      p.allHitsFrom before offset skip t := by
  have hin := (p.allHitsFrom_spec before t offset skip).2 hit hhit
  have hstart := hin.start_le
  have hstop := hin.stop_le
  induction t generalizing before offset skip with
  | nil =>
    simp only [length_nil] at hstop
    omega
  | cons c rest ih =>
    have hdrop : (c :: rest).drop (hit.stop - offset) = rest.drop (hit.stop - (offset + 1)) := by
      rw [show hit.stop - offset = hit.stop - (offset + 1) + 1 by omega, drop_succ_cons]
    rw [length_cons] at hstop
    rw [hdrop]
    cases skip with
    | succ skip =>
      rw [allHitsFrom] at hhit ⊢
      exact ih hhit ((p.allHitsFrom_spec _ rest _ _).2 hit hhit) (by omega) (by omega)
    | zero =>
      rw [allHitsFrom] at hhit ⊢
      set h : Head := ⟨before, c :: rest, offset, []⟩ with hh
      rcases mem_append.mp hhit with hhere | hlater
      · -- the hit is the last one that begins here
        have hlast : (p.hitsAt h).getLast? = some hit := by
          rcases p.hitsAt_cases h with hnil | ⟨one, hone, -⟩ | ⟨a, b, htwo, hempty, -, -⟩
          · rw [hnil] at hhere
            exact absurd hhere not_mem_nil
          · rw [hone, mem_singleton] at hhere
            rw [hone, hhere]
            rfl
          · rw [htwo] at hhere ⊢
            rcases mem_pair.mp hhere with rfl | rfl
            · omega
            · rfl
        rw [hlast, map_some, getD_some]
        have hlen : hit.stop - offset - 1 ≤ rest.length := by omega
        have hskip := p.allHitsFrom_skip (c :: before) (rest.take (hit.stop - offset - 1))
          (rest.drop (hit.stop - offset - 1)) (offset + 1)
        rw [take_append_drop, length_take, min_eq_left hlen] at hskip
        rw [hskip, show offset + 1 + (hit.stop - offset - 1) = hit.stop by omega,
          show hit.stop - offset - 1 = hit.stop - (offset + 1) by omega]
        exact ⟨_, subset_append_right _ _⟩
      · have hin' := (p.allHitsFrom_spec _ rest _ _).2 hit hlater
        have hstart' := hin'.start_le
        obtain ⟨before', hsubset⟩ := ih hlater hin' (by omega) (by omega)
        exact ⟨before', List.Subset.trans hsubset (subset_append_right _ _)⟩

/-! ## Phrases in a part -/

lemma Text.slice_slice (t : Text) {c e : Nat} (h : a + e ≤ b) :
    (t.slice a b).slice c e = t.slice (c + a) (e + a) := by
  simp only [slice_eq_take_drop, drop_take, drop_drop, take_take, Nat.add_comm a c]
  congr 1
  omega

lemma lookup_map_shiftCapture (n number : Nat) (parts : List (Nat × Nat × Nat)) :
    (parts.map (shiftCapture n)).lookup number =
      (parts.lookup number).map fun span => (span.1 + n, span.2 + n) := by
  induction parts with
  | nil => rfl
  | cons part parts ih =>
    rw [map_cons, shiftCapture, lookup_cons, lookup_cons, ih]
    cases number == part.1 <;> rfl

/-- The phrase of a hit in a part of a text is that of the hit in the whole of it. -/
lemma Hit.phrase?_shifted {q : Phrase} (h : hit.phrase? (t.slice a b) = some q)
    (hstop : a + hit.stop ≤ b) : ∃ p, (hit.shifted a).phrase? t = some p ∧ p.full = q.full := by
  rw [phrase?] at h
  cases hcaptured : hit.captured.lookup 1 with
  | none =>
    rw [hcaptured] at h
    cases h
  | some span =>
    rw [hcaptured] at h
    simp only at h
    split_ifs at h with hempty
    obtain rfl := some.inj h
    -- what is captured in the whole text begins with what is captured in the part
    have hmore : ¬ (t.slice (span.1 + a) (span.2 + a)).isEmpty := by
      intro hnil
      apply hempty
      have hlen := congrArg List.length (List.isEmpty_iff.mp hnil)
      rw [Text.length_slice, length_nil] at hlen
      rw [List.isEmpty_iff, ← length_eq_zero_iff, Text.length_slice, Text.length_slice]
      omega
    refine ⟨⟨t.slice (hit.start + a) (hit.stop + a), t.slice (span.1 + a) (span.2 + a), hit.start + a,
      hit.stop + a⟩, ?_, ?_⟩
    · rw [phrase?, shifted, lookup_map_shiftCapture, hcaptured]
      simp only [map_some]
      rw [if_neg hmore]
    · exact (t.slice_slice hstop).symm

namespace Delimiter

variable {d : Delimiter} {t : Text}

/-- Nothing in a text is a phrase when read again. -/
def IsSilent (d : Delimiter) (t : Text) : Prop := ∀ p ∈ d.phrases t, d.phrase? p.full = none

/-- A place where a part of a text can begin: its beginning, or the end of a phrase. -/
def Begins (d : Delimiter) (t : Text) (a : Nat) : Prop :=
  a = 0 ∨ ∃ p ∈ d.phrases t, p.start < p.stop ∧ p.stop = a

/-- A place where a part of a text can end: its end, or the beginning of a phrase. -/
def Ends (d : Delimiter) (t : Text) (b : Nat) : Prop :=
  b = t.length ∨ ∃ p ∈ d.phrases t, p.start < p.stop ∧ p.start = b

/-- A hit in a part of a text is one in the whole of it, if it is not empty. -/
theorem mem_allHits_of_part (hplain : d.pattern.isPlain) (hle : a ≤ b) (hlen : b ≤ t.length) (ha : d.Begins t a)
    (hb : d.Ends t b) (hhit : hit ∈ d.pattern.allHits (t.slice a b)) (hne : hit.stop ≠ hit.start) :
    hit.shifted a ∈ d.pattern.allHits t := by
  -- the walk through the whole text begins anew where the part begins
  obtain ⟨before, hsubset⟩ : ∃ before, d.pattern.allHitsFrom before a 0 (t.drop a) ⊆
      d.pattern.allHits t := by
    rcases ha with rfl | ⟨p, hp, hlt, rfl⟩
    · exact ⟨[], List.Subset.refl _⟩
    · obtain ⟨first, hfirst, hphrase⟩ := mem_filterMap.mp hp
      obtain ⟨hstart, hstop, -, -⟩ := Hit.phrase?_eq_some hphrase
      rw [hstart, hstop] at hlt
      obtain ⟨before, hsubset⟩ := d.pattern.exists_allHitsFrom_after hfirst hlt
      rw [hstop]
      exact ⟨before, hsubset⟩
  have hsplit : t.drop a = t.slice a b ++ t.drop b := (t.slice_append_drop hle).symm
  have hwidth : (t.slice a b).length = b - a := by
    rw [Text.length_slice]
    omega
  -- and no hit leads out of the part, since another one begins where it ends
  have hstay : ∀ hit ∈ d.pattern.allHitsFrom before (0 + a) 0 (t.slice a b ++ t.drop b),
      hit.start < 0 + a + (t.slice a b).length → hit.stop ≤ 0 + a + (t.slice a b).length := by
    intro x hx hstart
    rw [Nat.zero_add, ← hsplit] at hx
    have hmem := hsubset hx
    rw [hwidth] at hstart ⊢
    rcases hb with rfl | ⟨p, hp, hlt, rfl⟩
    · have := (d.pattern.mem_allHits hmem).stop_le
      omega
    · obtain ⟨last, hlast, hphrase⟩ := mem_filterMap.mp hp
      obtain ⟨hlast', hstop', -, -⟩ := Hit.phrase?_eq_some hphrase
      have hne' : x ≠ last := by
        rintro rfl
        omega
      have : Std.Symm fun x y : Hit => x.stop ≤ y.start ∨ y.stop ≤ x.start := ⟨fun _ _ h => h.symm⟩
      have hapart : (d.pattern.allHits t).Pairwise fun x y => x.stop ≤ y.start ∨ y.stop ≤ x.start :=
        (d.pattern.pairwise_allHits t).imp fun h => Or.inl h
      rcases hapart.forall hmem hlast hne' with h | h
      · omega
      · have := (d.pattern.mem_allHits hmem).le
        omega
  rcases Pattern.mem_allHitsFrom_part hplain hstay hit hhit with hmem | hempty
  · rw [Nat.zero_add, ← hsplit] at hmem
    exact hsubset hmem
  · exact absurd hempty hne

/-- **Between phrases there are no others.** A part of a text that begins and ends with phrases, and
that holds no phrase of the text, is silent. -/
theorem isSilent_between (hplain : d.pattern.isPlain) (hle : a ≤ b) (hlen : b ≤ t.length) (ha : d.Begins t a)
    (hb : d.Ends t b) (hnone : ∀ p ∈ d.phrases t, (d.phrase? p.full).isSome → p.stop ≤ a ∨ b ≤ p.start) :
    d.IsSilent (t.slice a b) := by
  intro q hq
  obtain ⟨hit, hhit, hphrase⟩ := mem_filterMap.mp hq
  obtain ⟨hstart, hstop, hfull, -⟩ := Hit.phrase?_eq_some hphrase
  have hin := d.pattern.mem_allHits hhit
  have hin_le := hin.le
  have hin_stop := hin.stop_le
  rw [Text.length_slice] at hin_stop
  by_cases hempty : hit.stop = hit.start
  · rw [hfull, hempty, show (t.slice a b).slice hit.start hit.start = [] by simp [Text.slice],
      phrase?_nil]
  · by_contra hmarked
    have hmem := mem_allHits_of_part hplain hle hlen ha hb hhit hempty
    -- the phrase of the part is one of the whole text
    obtain ⟨p, hp, hpfull, hpstart, hpstop⟩ : ∃ p ∈ d.phrases t, p.full = q.full ∧
        p.start = hit.start + a ∧ p.stop = hit.stop + a := by
      obtain ⟨p, hp, hpfull⟩ := Hit.phrase?_shifted hphrase (by omega)
      obtain ⟨hpstart, hpstop, -, -⟩ := Hit.phrase?_eq_some hp
      exact ⟨p, mem_filterMap.mpr ⟨_, hmem, hp⟩, hpfull, hpstart, hpstop⟩
    rcases hnone p hp (by rw [hpfull]; exact isSome_iff_ne_none.mpr hmarked) with h | h
    · omega
    · omega

end Delimiter

end Phrasebook
