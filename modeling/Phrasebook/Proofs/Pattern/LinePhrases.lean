import Phrasebook.Proofs.Path
import Phrasebook.Proofs.Pattern.Underscores
import Phrasebook.Proofs.Text.Find

/-!
# One phrase on every line

Lines end at line feeds and nowhere else.

## Main results

* `Delimiter.phrases_default` — the default delimiter can be read without a pattern. A line marks one phrase
  at most: it begins with the first three underscores of the line and ends with the last three, if there
  is at least one character between them.
-/

namespace Phrasebook

open List Option

variable {c : CodePoint}

/-! ## Lines and their phrases -/

/-- The phrase of a line that begins at an offset: from its first underscores to its last ones, three on
either side, with something between them. -/
def linePhrase? (offset : Nat) (line : Text) : Option Phrase :=
  match Text.find? "___" line, Text.findLast? "___" line with
  | some first, some last =>
    let stop := last + 3
    if first + 7 ≤ stop then
      some ⟨line.slice first stop, line.slice (first + 3) (stop - 3), offset + first, offset + stop⟩
    else none
  | _, _ => none

/-- The phrases of lines, of which the first begins at an offset. -/
def linePhrases (offset : Nat) : List Text → List Phrase
  | [] => []
  | line :: rest => (linePhrase? offset line).toList ++ linePhrases (offset + line.length + 1) rest

/-- The hit of a line. -/
def lineHit? (offset : Nat) (line : Text) : Option Hit :=
  match Text.find? "___" line, Text.findLast? "___" line with
  | some first, some last =>
    if first + 4 ≤ last then
      some ⟨offset + first, offset + last + 3, [(1, offset + first + 3, offset + last)]⟩
    else none
  | _, _ => none

namespace Text

variable {needle t : Text}

lemma findLast?_cons_of_not_prefix (h : ¬ needle <+: c :: t) :
    findLast? needle (c :: t) = (findLast? needle t).map (· + 1) := by
  rw [findLast?]
  cases findLast? needle t with
  | some n => rfl
  | none => exact if_neg fun hp => h (List.isPrefixOf_iff_prefix.mp hp)

/-- Behind the last occurrence there is no other. -/
lemma findLast?_drop {n m : Nat} (h : findLast? needle t = some n) (hlt : n < m) (hle : m ≤ t.length) :
    findLast? needle (t.drop m) = none := by
  cases hlater : findLast? needle (t.drop m) with
  | none => rfl
  | some k =>
    have happend := findLast?_append (u := t.take m) hlater
    rw [take_append_drop, h, length_take, min_eq_left hle] at happend
    have := some.inj happend
    omega

end Text

section LineHit

variable {offset : Nat} {line : Text}

/-- A line that does not begin with underscores has the hit of the rest of it. -/
lemma lineHit?_cons_of_not_prefix (h : ¬ Text.ofString "___" <+: c :: line) :
    lineHit? offset (c :: line) = lineHit? (offset + 1) line := by
  rw [lineHit?, lineHit?, Text.find?_cons_of_neg h, Text.findLast?_cons_of_not_prefix h]
  cases Text.find? "___" line with
  | none => rfl
  | some first =>
    cases Text.findLast? "___" line with
    | none => rfl
    | some last =>
      simp only [map_some]
      have hiff : first + 1 + 4 ≤ last + 1 ↔ first + 4 ≤ last := by omega
      simp only [hiff, show offset + (first + 1) = offset + 1 + first by omega,
        show offset + (last + 1) = offset + 1 + last by omega]

/-- A line whose last underscores begin too early has no hit. -/
lemma lineHit?_of_lt (h : ∀ last, Text.findLast? "___" line = some last → last < 4) :
    lineHit? offset line = none := by
  rw [lineHit?]
  split
  · rename_i first last hfirst hlast
    have := h last hlast
    exact if_neg (by omega)
  · rfl

/-- If no underscores begin four further on or behind that, neither the line nor the rest of it has a hit. -/
lemma lineHit?_eq_none_of_drop {offset' : Nat} (h : Text.findLast? "___" ((c :: line).drop 4) = none) :
    lineHit? offset (c :: line) = none ∧ lineHit? offset' line = none := by
  have hlt : ∀ last, Text.findLast? "___" (c :: line) = some last → last < 4 := by
    intro last hlast
    rw [← take_append_drop 4 (c :: line)] at hlast
    have := Text.lt_of_findLast?_append h hlast
    rw [length_take] at this
    omega
  refine ⟨lineHit?_of_lt hlt, lineHit?_of_lt fun last hlast => ?_⟩
  have := hlt _ (Text.findLast?_append (u := [c]) hlast)
  simp only [length_singleton] at this
  omega

/-- A line that begins with underscores, and the last ones of it. -/
lemma lineHit?_of_marked {k : Nat} (hpre : Text.ofString "___" <+: line)
    (hk : Text.findLast? "___" (line.drop 4) = some k) :
    lineHit? offset line = some ⟨offset, offset + 7 + k, [(1, offset + 3, offset + 4 + k)]⟩ := by
  have hlength : 4 ≤ line.length := by
    by_contra hlt
    rw [drop_eq_nil_of_le (by omega)] at hk
    cases hk
  have hlast := Text.findLast?_append (u := line.take 4) hk
  rw [take_append_drop, length_take, min_eq_left hlength] at hlast
  have hfirst : Text.find? "___" line = some 0 := by
    obtain ⟨r, rfl⟩ := hpre
    exact Text.find?_cons_of_pos (prefix_append _ r)
  rw [lineHit?, hfirst, hlast]
  simp only [Nat.zero_add, Nat.add_zero, Nat.le_add_right, if_true, some.injEq, Hit.mk.injEq, true_and]
  exact ⟨by omega, by rw [Nat.add_assoc]⟩

end LineHit

/-! ## The walk along a line -/

namespace Delimiter

variable {d : Delimiter} (hd : ofText defaultSource = .ok d) {w v : Text} (hw : .scalar '\n' ∉ w)
  (hv : ∀ c ∈ v.head?, c = '\n')

include hd hw hv

lemma hitsAt_default (before : Text) (offset : Nat) :
    d.pattern.hitsAt ⟨before, w ++ v, offset, []⟩ =
      (if Text.ofString "___" <+: w then
        (Text.findLast? "___" (w.drop 4)).map fun k =>
          Hit.mk offset (offset + 7 + k) [(1, offset + 3, offset + 4 + k)]
      else none).toList := by
  rw [Pattern.hitsAt_eq_toList (isPlain_of_default hd) (firstHit_nil_of_default hd) rfl,
    hitAt_default hd hw hv]

/-- **The hits on one line**: that of the line, and then those behind it.

**Proof sketch.** Induction on the length of the line. Where no hit begins, the hit of the line is that of the
rest. Where one begins, it goes on to the last underscores, and none are left behind them. -/
theorem allHitsFrom_line (before : Text) (offset : Nat) :
    d.pattern.allHitsFrom before offset 0 (w ++ v) =
      (lineHit? offset w).toList ++
        d.pattern.allHitsFrom (w.reverse ++ before) (offset + w.length) 0 v := by
  induction hn : w.length using Nat.strong_induction_on generalizing w before offset with | _ n ih
  subst hn
  cases w with
  | nil => rfl
  | cons c w =>
    have hhits := hitsAt_default hd hw hv before offset
    have hw' : .scalar '\n' ∉ w := fun h => hw (mem_cons_of_mem c h)
    have hrest : d.pattern.allHitsFrom (c :: before) (offset + 1) 0 (w ++ v) =
        (lineHit? (offset + 1) w).toList ++
          d.pattern.allHitsFrom ((c :: w).reverse ++ before) (offset + (c :: w).length) 0 v := by
      rw [ih w.length (by simp) hw' _ _ rfl, reverse_cons, append_assoc, length_cons,
        show offset + 1 + w.length = offset + (w.length + 1) by omega]
      rfl
    rw [cons_append, Pattern.allHitsFrom]
    simp only [← cons_append, hhits]
    by_cases hpre : Text.ofString "___" <+: c :: w
    · rw [if_pos hpre]
      cases hk : Text.findLast? "___" ((c :: w).drop 4) with
      | none =>
        obtain ⟨hhere, hbehind⟩ := lineHit?_eq_none_of_drop hk
        rw [hhere]
        exact hbehind ▸ hrest
      | some k =>
        have hlength : k + 7 ≤ w.length + 1 := by
          have := (Text.prefix_of_findLast? hk).length_le
          simp [Text.ofString] at this
          omega
        have hnone : lineHit? (offset + 1 + (k + 6)) (w.drop (k + 6)) = none := by
          have hlast := Text.findLast?_drop hk (m := k + 3) (by omega) (by simp; omega)
          rw [drop_drop, show 4 + (k + 3) = k + 6 + 1 by omega, drop_succ_cons] at hlast
          exact lineHit?_of_lt (by simp [hlast])
        have hskip := d.pattern.allHitsFrom_skip (c :: before) (w.take (k + 6)) (w.drop (k + 6) ++ v) (offset + 1)
        have hw'' : .scalar '\n' ∉ w.drop (k + 6) := fun h => hw' (mem_of_mem_drop h)
        rw [← append_assoc, take_append_drop, length_take, min_eq_left (by omega),
          ih _ (by rw [length_drop, length_cons]; omega) hw'' _ _ rfl, hnone,
          ← append_assoc _ _ (c :: before), ← reverse_append, take_append_drop,
          length_drop] at hskip
        rw [lineHit?_of_marked hpre hk]
        simp only [map_some, toList_some, getLast?_singleton, getD_some]
        rw [show offset + 7 + k - offset - 1 = k + 6 by omega, hskip, reverse_cons, append_assoc,
          length_cons, show offset + 1 + (k + 6) + (w.length - (k + 6)) = offset + (w.length + 1) by omega]
        rfl
    · rw [if_neg hpre, lineHit?_cons_of_not_prefix hpre]
      exact hrest

end Delimiter

/-! ## All lines -/

/-- A slice of a line, as a slice of the text that it stands in. -/
lemma Text.slice_line (done w v : Text) {a b : Nat} (hab : a ≤ b) (hb : b ≤ w.length) :
    Text.slice (done ++ (w ++ v)) (done.length + a) (done.length + b) = w.slice a b := by
  refine slice_of_eq (u := done ++ w.take a) (r := w.drop b ++ v) ?_ ?_ ?_
  · rw [append_assoc, ← append_assoc (w.slice a b), slice_append_drop w hab,
      ← append_assoc (w.take a), take_append_drop]
  · rw [length_append, length_take, min_eq_left (hab.trans hb)]
  · rw [length_slice, min_eq_left hb]
    omega

/-- The hit of a line marks the phrase of the line. -/
lemma filterMap_lineHit? (done w v : Text) :
    (lineHit? done.length w).toList.filterMap (Hit.phrase? (done ++ (w ++ v))) =
      (linePhrase? done.length w).toList := by
  unfold lineHit? linePhrase?
  cases hfirst : Text.find? "___" w with
  | none => rfl
  | some first =>
    cases hlast : Text.findLast? "___" w with
    | none => rfl
    | some last =>
      have hlength : last + 3 ≤ w.length := by
        have := (Text.prefix_of_findLast? hlast).length_le
        simp [Text.ofString] at this
        omega
      by_cases hle : first + 4 ≤ last
      · have hpayload := Text.slice_line done w v (show first + 3 ≤ last by omega) (by omega)
        have hfull := Text.slice_line done w v (show first ≤ last + 3 by omega) hlength
        have hne : w.slice (first + 3) last ≠ [] := by
          rw [← length_pos_iff, Text.length_slice]
          omega
        simp only [if_pos hle, if_pos (show first + 7 ≤ last + 3 by omega), toList_some]
        have hphrase : Hit.phrase? (done ++ (w ++ v)) ⟨done.length + first, done.length + last + 3,
            [(1, done.length + first + 3, done.length + last)]⟩ = some ⟨w.slice first (last + 3),
              w.slice (first + 3) last, done.length + first, done.length + (last + 3)⟩ := by
          refine Hit.phrase?_eq_some_iff.mpr ⟨_, rfl, ?_, ?_⟩
          · rw [Nat.add_assoc, hpayload]
            exact hne
          · simp only [Nat.add_assoc, hpayload, hfull]
        rw [filterMap_cons_some hphrase]
        rfl
      · simp only [if_neg hle, if_neg (show ¬ first + 7 ≤ last + 3 by omega)]
        rfl

namespace Delimiter

/-- The phrases from the beginning of a line on are those of the lines.

**Proof sketch.** Induction on the length of what is left. It is a line, and then nothing or a line feed and
other lines; the walk passes a line feed without a hit. -/
lemma filterMap_allHitsFrom {d : Delimiter} (hd : ofText defaultSource = .ok d) (done rest : Text) :
    (d.pattern.allHitsFrom done.reverse done.length 0 rest).filterMap (Hit.phrase? (done ++ rest)) =
      linePhrases done.length (rest.splitWhere (· == '\n')) := by
  induction hn : rest.length using Nat.strong_induction_on generalizing done rest with
  | _ n ih =>
    obtain ⟨hw, hv⟩ := takeWhile_line rest
    have hsplit := takeWhile_append_dropWhile (p := (· != CodePoint.scalar '\n')) (l := rest)
    set w := rest.takeWhile (· != .scalar '\n')
    set v := rest.dropWhile (· != .scalar '\n')
    have hline : ∀ c ∈ w, (c == CodePoint.scalar '\n') = false := by
      intro c hc
      rw [beq_eq_false_iff_ne]
      rintro rfl
      exact hw hc
    have hstart : ∀ v : Text, (∀ c ∈ v.head?, c = .scalar '\n') → ∀ before offset,
        d.pattern.hitsAt ⟨before, v, offset, []⟩ = [] := fun v hv before offset =>
      hitsAt_default hd (w := []) not_mem_nil hv before offset
    rw [← hsplit, allHitsFrom_line hd hw hv, filterMap_append, filterMap_lineHit?]
    cases hcase : v with
    | nil =>
      rw [Pattern.allHitsFrom, if_pos rfl, hstart [] (by simp), append_nil,
        Text.splitWhere_of_forall hline]
      simp [linePhrases]
    | cons c r =>
      obtain rfl := hv c (by rw [hcase]; rfl)
      have hrest := ih r.length (by rw [← hn, ← hsplit, hcase]; simp; omega)
        (done ++ (w ++ [.scalar '\n'])) r rfl
      rw [Text.splitWhere_append_cons hline (by decide), linePhrases]
      congr 1
      rw [Pattern.allHitsFrom, hstart _ (by simp)]
      simp only [reverse_append, reverse_cons, reverse_nil, nil_append, append_assoc,
        cons_append, length_append, length_cons, length_nil] at hrest
      simp only [nil_append, getLast?_nil, map_none, getD_none, Nat.zero_sub,
        Nat.add_assoc, Nat.zero_add] at hrest ⊢
      exact hrest

/-- **One phrase on every line.** The phrases of the default delimiter are those of the lines of a text, one
after the other: of a line with the first three underscores at `s` and the end of the last three at `e`, the
part from `s` to `e`, with what stands between the underscores as its payload, if `e` is at least `s + 7`; and
no others. -/
theorem phrases_default : ∃ d, ofText defaultSource = .ok d ∧
    ∀ t : Text, d.phrases t = linePhrases 0 (t.splitWhere (· == '\n')) := by
  cases hd : ofText defaultSource with
  | error e =>
    have hok : (ofText defaultSource).toOption.isSome = true := by decide +kernel
    rw [hd] at hok
    cases hok
  | ok d => exact ⟨d, rfl, fun t => filterMap_allHitsFrom hd [] t⟩

end Delimiter

end Phrasebook
