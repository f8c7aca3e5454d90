import Phrasebook.Proofs.Pattern.ReadAgain
import Phrasebook.Proofs.Text.Order

/-!
# The delimiter that is used unless another is given

It marks a phrase by three underscores on either side, and the payload is what stands between them: at
least one character, and no line feed.

## Main results

* `runGreedy_payload` — as many characters as possible are taken for the payload.
* `Delimiter.hitAt_default` — a phrase ends with the last three underscores of its line.
-/

namespace Phrasebook

open List Option

variable {n : Nat} {v w : Text}

/-! ## The last occurrence -/

namespace Text

/-- The offset of the last occurrence of `needle`. -/
def findLast? (needle : Text) : Text → Option Nat
  | [] => if needle.isEmpty then some 0 else none
  | c :: rest =>
    match findLast? needle rest with
    | some n => some (n + 1)
    | none => if needle.isPrefixOf (c :: rest) then some 0 else none

variable {needle t u : Text}

lemma prefix_of_findLast? (h : findLast? needle t = some n) : needle <+: t.drop n := by
  induction t generalizing n with
  | nil =>
    simp only [findLast?] at h
    split_ifs at h with hnil
    rw [List.isEmpty_iff.mp hnil]
    exact nil_prefix
  | cons c t ih =>
    simp only [findLast?] at h
    split at h
    · rename_i m hm
      obtain rfl := some.inj h
      exact ih hm
    · split_ifs at h with hhere
      obtain rfl := some.inj h
      exact isPrefixOf_iff_prefix.mp hhere

/-- The last occurrence in the end of a text is the last one in the text. -/
lemma findLast?_append (h : findLast? needle t = some n) :
    findLast? needle (u ++ t) = some (u.length + n) := by
  induction u with
  | nil => simpa using h
  | cons c u ih =>
    rw [cons_append, findLast?, ih]
    simp only [length_cons, some.injEq]
    omega

/-- If there is none in the end of a text, the last one begins before it. -/
lemma lt_of_findLast?_append (hnone : findLast? needle t = none) (h : findLast? needle (u ++ t) = some n) :
    n < u.length := by
  induction u generalizing n with
  | nil =>
    rw [nil_append, hnone] at h
    cases h
  | cons c u ih =>
    rw [cons_append, findLast?] at h
    rw [length_cons]
    split at h
    · rename_i m hm
      have := ih hm
      obtain rfl := some.inj h
      omega
    · split_ifs at h
      obtain rfl := some.inj h
      omega

end Text

/-! ## Runs -/

lemma Pattern.run_one_nil {α : Type} (s : CharSet) (next : Continuation α) (before : Text) (offset : Nat)
    (captured : List (Nat × Nat × Nat)) : (one s).run next ⟨before, [], offset, captured⟩ = none := rfl

lemma Pattern.run_one_cons {α : Type} (s : CharSet) (next : Continuation α) (before rest : Text)
    (c : CodePoint) (offset : Nat) (captured : List (Nat × Nat × Nat)) :
    (one s).run next ⟨before, c :: rest, offset, captured⟩ =
      if s.holds c then next ⟨c :: before, rest, offset + 1, captured⟩ else none := rfl

lemma Pattern.run_greedy {α : Type} (least : Nat) (most : Option Nat) (p : Pattern) (next : Continuation α)
    (h : Head) : (times .greedy least most p).run next h =
      runGreedy p.run least most next (roundFuel least h) 0 none h := by
  rw [run]

/-! ## Underscores -/

/-- The set of the underscore. -/
def CharSet.underscore : CharSet := .single .counts 0x5F

lemma CharSet.underscore_holds_iff (c : CodePoint) : underscore.holds c ↔ c = '_' := by
  constructor
  · intro h
    apply CodePoint.eq_of_toNat_eq
    simp only [holds, underscore, single, any_cons, any_nil, SetItem.holds, CaseRule.variants] at h
    simp at h
    show c.toNat = 0x5F
    omega
  · rintro rfl
    rfl

lemma CharSet.everyButLineFeed_holds_iff (c : CodePoint) : everyButLineFeed.holds c ↔ c ≠ '\n' := by
  simp only [holds, everyButLineFeed, any_cons, any_nil, SetItem.holds, CaseRule.variants]
  simp
  constructor
  · rintro h rfl
    simp [CodePoint.toNat] at h
  · intro h
    by_contra heq
    exact h (CodePoint.eq_of_toNat_eq (by simp [CodePoint.toNat] at *; omega))

/-- Three underscores and then something else. -/
def Pattern.underscoresThen (p : Pattern) : Pattern :=
  .seq (.one .underscore) (.seq (.one .underscore) (.seq (.one .underscore) p))

/-- Three underscores. -/
def Pattern.underscores : Pattern :=
  .seq (.one .underscore) (.seq (.one .underscore) (.one .underscore))

/-- Three underscores, and what follows. -/
lemma Pattern.run_underscoresThen {α : Type} (p : Pattern) (next : Continuation α) (before after : Text)
    (offset : Nat) (captured : List (Nat × Nat × Nat)) :
    (underscoresThen p).run next ⟨before, after, offset, captured⟩ =
      if Text.ofString "___" <+: after then
        p.run next ⟨(after.take 3).reverse ++ before, after.drop 3, offset + 3, captured⟩
      else none := by
  show (one .underscore).run ((one .underscore).run ((one .underscore).run (p.run next))) _ = _
  rcases after with _ | ⟨a, _ | ⟨b, _ | ⟨c, rest⟩⟩⟩
  · rfl
  · simp [run_one_cons, run_one_nil, Text.ofString]
  · simp [run_one_cons, run_one_nil, Text.ofString]
  · have hprefix : Text.ofString "___" <+: a :: b :: c :: rest ↔ a = '_' ∧ b = '_' ∧ c = '_' := by
      simp [Text.ofString, eq_comm]
    simp only [run_one_cons, CharSet.underscore_holds_iff, hprefix, ite_and]
    rfl

/-- **The payload and the underscores behind it**: as many characters of the line as possible, so that they
end with the last three underscores of it. Here `w` is the rest of the line. Every round takes a character,
so the fuel and the place of the last round do not matter. -/
theorem runGreedy_payload {α : Type} {next : Continuation α} {captured : List (Nat × Nat × Nat)}
    (result : Nat → α) (hnext : ∀ before after offset, next ⟨before, after, offset, captured⟩ =
      if Text.ofString "___" <+: after then some (result offset) else none)
    (hw : .scalar '\n' ∉ w) (hv : ∀ c ∈ v.head?, c = .scalar '\n') {before : Text} {fuel count offset : Nat}
    {last : Option Nat} (hcount : 1 ≤ count) (hlast : ∀ n ∈ last, n < offset)
    (hfuel : (w ++ v).length < fuel) :
    runGreedy (Pattern.one .everyButLineFeed).run 1 none next fuel count last
        ⟨before, w ++ v, offset, captured⟩ =
      (Text.findLast? "___" w).map fun k => result (offset + k) := by
  have hpre : ∀ {t}, Text.ofString "___" <+: t ++ v ↔ Text.ofString "___" <+: t :=
    Text.prefix_append_iff fun c hc => hv c hc ▸ (by decide)
  induction w generalizing before fuel count offset last with
  | nil =>
    obtain ⟨fuel, rfl⟩ : ∃ n, fuel = n + 1 := ⟨fuel - 1, by omega⟩
    have hstop : ∀ k, (Pattern.one .everyButLineFeed).run k ⟨before, [] ++ v, offset, captured⟩ =
        (none : Option α) := by
      intro k
      cases v with
      | nil => rfl
      | cons c v =>
        obtain rfl := hv c rfl
        rfl
    simp only [runGreedy, if_neg (not_lt.mpr hcount), hstop, ite_self, hnext, hpre]
    rfl
  | cons c w ih =>
    obtain ⟨fuel, rfl⟩ : ∃ n, fuel = n + 1 := ⟨fuel - 1, by omega⟩
    rw [mem_cons, not_or] at hw
    have hc : CharSet.everyButLineFeed.holds c :=
      (CharSet.everyButLineFeed_holds_iff c).mpr (Ne.symm hw.1)
    have hmore : (roundAllowed none count && last != some offset) := by
      rw [roundAllowed, Bool.true_and, bne_iff_ne]
      rintro rfl
      exact absurd (hlast offset rfl) (lt_irrefl _)
    rw [cons_append, length_cons] at hfuel
    have hrest := @ih hw.2 (c :: before) fuel (count + 1) (offset + 1) (some offset) (by omega) (by simp)
      (by omega)
    rw [cons_append]
    simp only [runGreedy, if_neg (not_lt.mpr hcount), if_pos hmore, Pattern.run_one_cons, if_pos hc, hrest,
      hnext]
    simp only [← cons_append, hpre, Text.findLast?]
    cases Text.findLast? "___" w with
    | some k =>
      simp only [map_some, some.injEq]
      congr 1
      omega
    | none =>
      simp only [map_none, isPrefixOf_iff_prefix]
      split_ifs <;> rfl

/-- The payload takes at least one character of the line. -/
lemma Pattern.run_payload {α : Type} (result : Nat → List (Nat × Nat × Nat) → α) (hw : .scalar '\n' ∉ w)
    (hv : ∀ c ∈ v.head?, c = '\n') (captured : List (Nat × Nat × Nat)) (before : Text) (offset : Nat) :
    (seq (group 1 (times .greedy 1 none (one .everyButLineFeed))) underscores).run
        (fun h => some (result h.offset h.captured)) ⟨before, w ++ v, offset, captured⟩ =
      (Text.findLast? "___" (w.drop 1)).map fun k =>
        result (offset + 1 + k + 3) ((1, offset, offset + 1 + k) :: captured) := by
  -- the first character is due, and then as many as possible are taken
  have hrun : (seq (group 1 (times .greedy 1 none (one .everyButLineFeed))) underscores).run
      (fun h => some (result h.offset h.captured)) ⟨before, w ++ v, offset, captured⟩ =
        (one .everyButLineFeed).run (runGreedy (one .everyButLineFeed).run 1 none
          (fun h => (underscoresThen empty).run (fun h => some (result h.offset h.captured))
            { h with captured := (1, offset, h.offset) :: h.captured }) ((w ++ v).length + 2) 1 none)
          ⟨before, w ++ v, offset, captured⟩ := by
    have hfuel : roundFuel 1 ⟨before, w ++ v, offset, captured⟩ = (w ++ v).length + 2 + 1 := by
      simp only [roundFuel]
      omega
    show (times .greedy 1 none (one .everyButLineFeed)).run (fun h => underscores.run _ _) _ = _
    rw [run_greedy, hfuel]
    rfl
  rw [hrun]
  cases w with
  | nil =>
    cases v with
    | nil => rfl
    | cons c v =>
      obtain rfl := hv c rfl
      rfl
  | cons c w =>
    rw [mem_cons, not_or] at hw
    have hc : CharSet.everyButLineFeed.holds c :=
      (CharSet.everyButLineFeed_holds_iff c).mpr (Ne.symm hw.1)
    rw [cons_append, run_one_cons, if_pos hc]
    refine runGreedy_payload (fun n => result (n + 3) ((1, offset, n) :: captured)) ?_ hw.2 hv (le_refl 1)
      (by simp) (by simp; omega)
    intro before after offset'
    exact run_underscoresThen _ _ _ _ _ _

namespace Delimiter

variable {d : Delimiter}

/-- The default pattern, as it is parsed. -/
lemma pattern_of_default (hd : ofText defaultSource = .ok d) :
    d.pattern = Pattern.underscoresThen
      (.seq (.group 1 (.times .greedy 1 none (.one .everyButLineFeed))) Pattern.underscores) := by
  have heval : (ofText defaultSource).toOption.map Delimiter.pattern = some (Pattern.underscoresThen
      (.seq (.group 1 (.times .greedy 1 none (.one .everyButLineFeed))) Pattern.underscores)) := by
    decide +kernel
  rw [hd] at heval
  exact some.inj heval

/-- The default pattern looks at nothing around it. -/
lemma isPlain_of_default (hd : ofText defaultSource = .ok d) : d.pattern.isPlain := by
  rw [pattern_of_default hd]
  rfl

lemma firstHit_nil_of_default (hd : ofText defaultSource = .ok d) : d.pattern.firstHit [] = none := by
  rw [pattern_of_default hd]
  rfl

/-- **Where the default delimiter hits.** Here `w` is the rest of the line. A hit begins with underscores
and takes at least one character; it ends with the last underscores behind that. -/
theorem hitAt_default (hd : ofText defaultSource = .ok d) (hw : .scalar '\n' ∉ w)
    (hv : ∀ c ∈ v.head?, c = '\n') (before : Text) (offset : Nat) :
    d.pattern.hitAt false ⟨before, w ++ v, offset, []⟩ =
      if Text.ofString "___" <+: w then
        (Text.findLast? "___" (w.drop 4)).map fun k =>
          ⟨offset, offset + 7 + k, [(1, offset + 3, offset + 4 + k)]⟩
      else none := by
  have hfeed : .scalar '\n' ∉ Text.ofString "___" := by decide
  rw [Pattern.hitAt, pattern_of_default hd, Pattern.run_underscoresThen]
  simp only [Text.prefix_append_iff fun c hc => hv c hc ▸ hfeed]
  split_ifs with hpre
  · obtain ⟨r, rfl⟩ := hpre
    have hr : .scalar '\n' ∉ r := fun h => hw (mem_append_right _ h)
    have hpayload := Pattern.run_payload (fun stop captured => Hit.mk offset stop captured) hr hv []
      ("___" ++ before) (offset + 3)
    refine hpayload.trans (congrArg (Option.map · _) (funext fun k => ?_))
    rw [show offset + 3 + 1 + k + 3 = offset + 7 + k by omega, show offset + 3 + 1 + k = offset + 4 + k by omega]
  · rfl

/-- The line that a text begins with, and what follows it. -/
lemma takeWhile_line (t : Text) :
    .scalar '\n' ∉ t.takeWhile (· != .scalar '\n') ∧
      ∀ c ∈ (t.dropWhile (· != .scalar '\n')).head?, c = .scalar '\n' := by
  refine ⟨fun h => ?_, fun c hc => ?_⟩
  · simpa using mem_takeWhile_imp h
  · have hstop := head?_dropWhile_not (· != CodePoint.scalar '\n') t
    rw [hc] at hstop
    simpa using hstop

/-- A hit of the default delimiter: the payload between underscores. -/
lemma exists_of_hitAt_default (hd : ofText defaultSource = .ok d) {before after : Text} {offset : Nat}
    {hit : Hit} (hhit : d.pattern.hitAt false ⟨before, after, offset, []⟩ = some hit) :
    ∃ payload rest : Text, after = "___" ++ (payload ++ ("___" ++ rest)) ∧
      hit = ⟨offset, offset + 3 + payload.length + 3, [(1, offset + 3, offset + 3 + payload.length)]⟩ := by
  obtain ⟨hw, hv⟩ := takeWhile_line after
  rw [← takeWhile_append_dropWhile (p := (· != CodePoint.scalar '\n')) (l := after),
    hitAt_default hd hw hv] at hhit
  split_ifs at hhit with hpre
  obtain ⟨k, hk, rfl⟩ := map_eq_some_iff.mp hhit
  obtain ⟨r, hr⟩ := hpre
  rw [← hr] at hk
  -- the underscores behind the payload
  obtain ⟨rest, hrest⟩ := Text.prefix_of_findLast? hk
  have hdrop : r.drop (1 + k) = "___" ++ rest := by
    rw [hrest, ← drop_drop]
    rfl
  have hlength : (r.take (1 + k)).length = 1 + k := by
    have := congrArg List.length hdrop
    simp [Text.ofString] at this ⊢
    omega
  refine ⟨r.take (1 + k), rest ++ after.dropWhile (· != .scalar '\n'), ?_, ?_⟩
  · rw [← append_assoc (Text.ofString "___") rest, ← hdrop, ← append_assoc (r.take _),
      take_append_drop, ← append_assoc, hr, takeWhile_append_dropWhile]
  · rw [hlength, show offset + 3 + (1 + k) = offset + 4 + k by omega,
      show offset + 4 + k + 3 = offset + 7 + k by omega]

/-- **A phrase of the default delimiter** is its payload between three underscores on either side, and is
read so again. -/
theorem full_of_mem_phrases (hd : ofText defaultSource = .ok d) {t : Text} {p : Phrase} (hp : p ∈ d.phrases t) :
    (∃ u v, t = u ++ (p.full ++ v) ∧ p.start = u.length ∧ p.stop = p.start + p.full.length) ∧
      p.full = "___" ++ (p.payload ++ "___") ∧ (d.phrase? p.full).map Phrase.payload = some p.payload := by
  have hplain := isPlain_of_default hd
  have hempty := firstHit_nil_of_default hd
  have hagain := phrase?_full hplain hempty hp
  obtain ⟨hit, hhit, hphrase⟩ := mem_filterMap.mp hp
  obtain ⟨span, hspan, -, rfl⟩ := Hit.phrase?_eq_some_iff.mp hphrase
  obtain ⟨u, after, rfl, hfound⟩ := d.pattern.exists_mem_hitsAt hhit
  rw [Pattern.hitsAt_eq_toList hplain hempty rfl, mem_toList] at hfound
  obtain ⟨payload, rest, rfl, rfl⟩ := exists_of_hitAt_default hd hfound
  obtain rfl := some.inj hspan
  have hlength : ("___" ++ (payload ++ "___") : Text).length = 3 + payload.length + 3 := by
    simp [Text.ofString]
    omega
  have hpayload : (u ++ ("___" ++ (payload ++ ("___" ++ rest)))).slice (0 + u.length + 3)
      (0 + u.length + 3 + payload.length) = payload := by
    refine Text.slice_of_eq (u := u ++ "___") (r := "___" ++ rest) ?_ ?_ rfl
    · rw [append_assoc]
    · simp [Text.ofString]
  have hfull : (u ++ ("___" ++ (payload ++ ("___" ++ rest)))).slice (0 + u.length)
      (0 + u.length + 3 + payload.length + 3) = "___" ++ (payload ++ "___") := by
    refine Text.slice_of_eq (u := u) (r := rest) ?_ (Nat.zero_add _) ?_
    · simp only [append_assoc]
    · omega
  simp only [hpayload, hfull] at hagain ⊢
  refine ⟨⟨u, rest, ?_, Nat.zero_add _, ?_⟩, trivial, ?_⟩
  · simp only [append_assoc]
  · omega
  · rw [hagain]
    rfl

end Delimiter

end Phrasebook
