import Phrasebook.Literal.Escape
import Phrasebook.Proofs.Text.Backslashes
import Phrasebook.Proofs.Text.Slice

/-!
# How a literal is spelled

The inside of a string literal is a sequence of spellings: characters that stand for themselves, and escapes.
What a spelling is depends on what follows it, as in `\u` with too few digits behind it; so a spelling is
described together with the rest of the literal.

## Main results

* `exists_spells` — every text begins with a spelling.
* `Spells.spellingAt_eq` — it is the one that the decoder reads.
-/

namespace Phrasebook

open List Option

variable {n : Nat} {w : Text}

/-! ## Digits -/

lemma isSome_of_hexValue? (h : hexValue? w = some n) : w ≠ [] ∧ ∀ c ∈ w, c.hexValue?.isSome := by
  rw [hexValue?] at h
  split_ifs at h with hempty
  refine ⟨by simpa using hempty, ?_⟩
  clear hempty
  generalize 0 = start at h
  induction w generalizing start with
  | nil => exact fun c hc => absurd hc not_mem_nil
  | cons d w ih =>
    rw [foldlM_cons] at h
    obtain ⟨next, hnext, h⟩ := bind_eq_some_iff.mp h
    obtain ⟨value, hvalue, -⟩ := map_eq_some_iff.mp hnext
    exact forall_mem_cons.mpr ⟨by simp [hvalue], ih next h⟩

/-- A digit is none of the characters that mean something else. -/
lemma ne_of_hexValue? (h : hexValue? w = some n) {d : Char} (hd : (CodePoint.scalar d).hexValue? = none) :
    ∀ c ∈ w, c ≠ .scalar d := by
  rintro c hc rfl
  have hsome := (isSome_of_hexValue? h).2 _ hc
  rw [hd] at hsome
  cases hsome

/-- What follows `\u` in an escape with a number: four digits, or digits in braces. -/
inductive CodeDigits : Text → Nat → Prop where
  | four {w : Text} {n : Nat} (hlength : w.length = 4) (hvalue : hexValue? w = some n) : CodeDigits w n
  | braced {w : Text} {n : Nat} (hvalue : hexValue? w = some n) :
    CodeDigits (.scalar '\x7b' :: (w ++ [.scalar '\x7d'])) n

lemma CodeDigits.unicodeSpelling_append (h : CodeDigits w n) (rest : Text) :
    unicodeSpelling (w ++ rest) = (.code n, w.length + 2) := by
  cases h with
  | four hlength hvalue =>
    have hbrace := ne_of_hexValue? hvalue (d := '\x7b') (by decide)
    obtain ⟨c, u, rfl⟩ := exists_cons_of_length_eq_add_one hlength
    have htake : ((c :: u) ++ rest).take 4 = c :: u := take_left' hlength
    rw [unicodeSpelling.eq_def]
    split
    · rename_i inner heq
      exact absurd (List.cons.inj heq).1 (hbrace c mem_cons_self)
    · rw [htake, hvalue, hlength, length_append, hlength, if_pos (Nat.le_add_right 4 _)]
  | @braced w _ hvalue =>
    have hbrace := ne_of_hexValue? hvalue (d := '\x7d') (by decide)
    have hdigits : bracedDigits? (w ++ .scalar '\x7d' :: rest) = some w := by
      have htake : (w ++ .scalar '\x7d' :: rest).takeWhile (fun (c : CodePoint) => c != '\x7d') = w :=
        takeWhile_append_of_head (by simpa using hbrace) (by simp)
      simp only [bracedDigits?, htake]
      rw [if_pos (by simp)]
    have hform : .scalar '\x7b' :: (w ++ [.scalar '\x7d']) ++ rest =
        .scalar '\x7b' :: (w ++ .scalar '\x7d' :: rest) := by simp
    rw [hform, unicodeSpelling.eq_def]
    simp [hdigits, hvalue]

/-- What follows `\u` begins with digits, or the escape stands for its letter. -/
lemma unicodeSpelling_cases (rest : Text) :
    (∃ w n r, CodeDigits w n ∧ rest = w ++ r) ∨ unicodeSpelling rest = (.point (.scalar 'u'), 2) := by
  rw [unicodeSpelling.eq_def]
  split
  · rename_i inner
    cases hdigits : bracedDigits? inner with
    | none => exact .inr rfl
    | some digits =>
      cases hvalue : hexValue? digits with
      | none => exact .inr (by simp [hvalue])
      | some n =>
        simp only [bracedDigits?] at hdigits
        split_ifs at hdigits with hlt
        obtain ⟨stop, r, hstop, hinner⟩ := exists_of_length_takeWhile_lt hlt
        obtain rfl : stop = '\x7d' := by simpa using hstop
        rw [some.inj hdigits] at hinner
        exact .inl ⟨_, n, r, .braced hvalue, by rw [hinner]; simp⟩
  · split_ifs with hfour
    · cases hvalue : hexValue? (rest.take 4) with
      | none => exact .inr rfl
      | some n =>
        refine .inl ⟨rest.take 4, n, rest.drop 4, .four ?_ hvalue, (take_append_drop 4 rest).symm⟩
        exact length_take_of_le hfour
    · exact .inr rfl

/-! ## Spellings -/

/-- **What a spelling stands for**, given the rest of the literal behind it. -/
inductive Spells (rest : Text) : Text → Spelling → Prop where
  | plain {c : CodePoint} (hc : c ≠ '\\') : Spells rest [c] (.point c)
  /-- A backslash with nothing behind it. -/
  | last (hrest : rest = []) : Spells rest ['\\'] (.point '\\')
  /-- An escape with one letter or sign. -/
  | simple {e c : CodePoint} (he : simpleEscape? e = some c) : Spells rest [.scalar '\\', e] (.point c)
  /-- A line that is continued. -/
  | lineEnd {e : CodePoint}
      (he : e = .scalar '\r' ∧ rest.head? ≠ some (.scalar '\n') ∨ isLineTerminator e = true) :
    Spells rest [.scalar '\\', e] .nothing
  | returnAndLineFeed : Spells rest [.scalar '\\', .scalar '\r', .scalar '\n'] .nothing
  /-- An escape with a number. -/
  | code {w : Text} {n : Nat} (hw : CodeDigits w n) :
    Spells rest (.scalar '\\' :: .scalar 'u' :: w) (.code n)
  | hex {w : Text} {n : Nat} (hlength : w.length = 2) (hvalue : hexValue? w = some n) :
    Spells rest (.scalar '\\' :: .scalar 'x' :: w) (.point ((CodePoint.ofNat? n).getD default))
  | zero (hrest : rest.head?.any CodePoint.isDigit = false) :
    Spells rest [.scalar '\\', .scalar '0'] (.point (.scalar '\x00'))
  /-- A backslash that means nothing. -/
  | other {e : CodePoint} (hsimple : simpleEscape? e = none) (hreturn : e ≠ .scalar '\r')
      (hline : isLineTerminator e = false)
      (hcode : e = .scalar 'u' → ∀ w n, CodeDigits w n → ¬ w <+: rest)
      (hhex : e = .scalar 'x' → ∀ w n, w.length = 2 → hexValue? w = some n → ¬ w <+: rest)
      (hzero : e = .scalar '0' → rest.head?.any CodePoint.isDigit = true) :
    Spells rest [.scalar '\\', e] (.point e)

/-- A line terminator is no letter of an escape. -/
lemma simpleEscape?_of_isLineTerminator {e : CodePoint} (h : isLineTerminator e) :
    simpleEscape? e = none := by
  rw [isLineTerminator] at h
  simp only [Bool.or_eq_true, beq_iff_eq, decide_eq_true_eq] at h
  rw [simpleEscape?]
  have hne : ∀ d : Char, d.toNat ≠ 0x0A → d.toNat < 0x2028 → e ≠ .scalar d := by
    rintro d hfeed hlow rfl
    rcases h with (h | h) | h
    · obtain rfl := CodePoint.scalar.inj h
      exact hfeed rfl
    · have hcode : d.toNat = 0x2028 := h
      omega
    · have hcode : d.toNat = 0x2029 := h
      omega
  simp [CodePoint.isOneOf, hne]

namespace Spells

variable {rest w : Text} {m : Spelling}

/-- **The model reads one spelling.** -/
theorem spellingAt_eq (h : Spells rest w m) :
    ∃ c u, w = c :: u ∧ spellingAt c (u ++ rest) = (m, w.length) := by
  cases h with
  | plain hc => exact ⟨_, [], rfl, by simp [spellingAt, hc]⟩
  | last hrest =>
    subst hrest
    exact ⟨_, [], rfl, rfl⟩
  | simple he => exact ⟨_, _, rfl, by simp [spellingAt, escapeSpelling, he]⟩
  | @lineEnd e he =>
    refine ⟨_, _, rfl, ?_⟩
    rcases he with ⟨rfl, hrest⟩ | he
    · have hsimple : simpleEscape? (.scalar '\r') = none := by decide
      simp [spellingAt, escapeSpelling, hsimple, hrest]
    · have hsimple := simpleEscape?_of_isLineTerminator he
      have hreturn : e ≠ .scalar '\r' := by
        rintro rfl
        exact absurd he (by decide)
      simp [spellingAt, escapeSpelling, hsimple, he, hreturn]
  | returnAndLineFeed =>
    have hsimple : simpleEscape? (.scalar '\r') = none := by decide
    exact ⟨_, _, rfl, by simp [spellingAt, escapeSpelling, hsimple]⟩
  | code hw =>
    refine ⟨_, _, rfl, ?_⟩
    have hsimple : simpleEscape? 'u' = none := by decide
    have hline : isLineTerminator 'u' = false := by decide
    simp [spellingAt, escapeSpelling, hsimple, hline, hw.unicodeSpelling_append]
  | @hex digits n hlength hvalue =>
    refine ⟨_, _, rfl, ?_⟩
    have hsimple : simpleEscape? 'x' = none := by decide
    have hline : isLineTerminator 'x' = false := by decide
    have htake : (digits ++ rest).take 2 = digits := take_left' hlength
    simp [spellingAt, escapeSpelling, hsimple, hline, htake, hlength, hvalue]
  | zero hrest =>
    refine ⟨_, _, rfl, ?_⟩
    have hsimple : simpleEscape? '0' = none := by decide
    have hline : isLineTerminator '0' = false := by decide
    simp [spellingAt, escapeSpelling, hsimple, hline, hrest]
  | @other e hsimple hreturn hline hcode hhex hzero =>
    refine ⟨_, _, rfl, ?_⟩
    show escapeSpelling e rest = (.point e, 2)
    rw [escapeSpelling, hsimple]
    simp only [beq_iff_eq, hreturn, if_false, hline, Bool.false_eq_true]
    split_ifs with hu hx hz
    · subst hu
      rcases unicodeSpelling_cases rest with ⟨digits, n, r, hdigits, rfl⟩ | hpoint
      · exact absurd (prefix_append digits r) (hcode rfl digits n hdigits)
      · exact hpoint
    · obtain ⟨rfl, hlength⟩ : e = 'x' ∧ 2 ≤ rest.length := by simpa using hx
      cases hvalue : hexValue? (rest.take 2) with
      | none => rfl
      | some n =>
        exact absurd (List.take_prefix 2 rest) (hhex rfl _ n (length_take_of_le hlength) hvalue)
    · obtain ⟨rfl, hrest⟩ : e = '0' ∧ rest.head?.any CodePoint.isDigit = false := by
        simpa only [Bool.and_eq_true, beq_iff_eq, Bool.not_eq_true'] using hz
      rw [hzero rfl] at hrest
      cases hrest
    · rfl

/-- **A spelling with something behind it** ends with an even run of backslashes. -/
theorem endingBackslashes_mod_two (h : Spells rest w m) (hrest : rest ≠ []) :
    endingBackslashes w % 2 = 0 := by
  have hdigits : ∀ {e : CodePoint} {digits : Text} {n : Nat}, hexValue? digits = some n →
      endingBackslashes ('\\' :: e :: digits) = 0 := by
    intro e digits n hvalue
    have hslash := ne_of_hexValue? hvalue (d := '\\') (by decide)
    obtain ⟨u, c, rfl⟩ := (eq_nil_or_concat digits).resolve_left (isSome_of_hexValue? hvalue).1
    rw [concat_eq_append] at hslash ⊢
    exact endingBackslashes_concat (hslash c (by simp)) (.scalar '\\' :: e :: u)
  cases h with
  | plain hc => rw [endingBackslashes_singleton hc]
  | last hnil => exact absurd hnil hrest
  | simple | lineEnd | zero | other => exact endingBackslashes_escape _
  | returnAndLineFeed => rfl
  | code hw =>
    cases hw with
    | four _ hvalue => rw [hdigits hvalue]
    | @braced digits _ _ =>
      exact congrArg (· % 2) (endingBackslashes_concat (by decide)
        (.scalar '\\' :: .scalar 'u' :: .scalar '\x7b' :: digits))
  | hex _ hvalue => rw [hdigits hvalue]

/-- **A spelling with only a part of what follows it** stands for the same, but for `\0` before a digit. -/
theorem of_append {v r : Text} (h : Spells (v ++ r) w m)
    (hzero : (w, m) ≠ ([.scalar '\\', .scalar '0'], .point (.scalar '0'))) : Spells v w m := by
  have hhead : ∀ c, v.head? = some c → (v ++ r).head? = some c := fun c hc => by
    obtain ⟨u, rfl⟩ := head?_eq_some_iff.mp hc
    rfl
  cases h with
  | plain hc => exact .plain hc
  | last hnil => exact .last (append_eq_nil_iff.mp hnil).1
  | simple he => exact .simple he
  | lineEnd he => exact .lineEnd (he.imp_left fun h => ⟨h.1, fun hfeed => h.2 (hhead _ hfeed)⟩)
  | returnAndLineFeed => exact .returnAndLineFeed
  | code hw => exact .code hw
  | hex hlength hvalue => exact .hex hlength hvalue
  | zero hrest =>
    refine .zero ?_
    cases v with
    | nil => rfl
    | cons c v => exact hrest
  | other hsimple hreturn hline hcode hhex _ =>
    refine .other hsimple hreturn hline ?_ ?_ fun hz => absurd (by rw [hz]) hzero
    · exact fun hu u n hdigits hbegins => hcode hu u n hdigits (hbegins.trans (prefix_append v r))
    · exact fun hx u n hlength hvalue hbegins =>
        hhex hx u n hlength hvalue (hbegins.trans (prefix_append v r))

end Spells

/-- A backslash and a character behind it are read as some escape. -/
lemma exists_spells_escape (e : CodePoint) (t : Text) :
    ∃ w rest m, .scalar '\\' :: e :: t = w ++ rest ∧ Spells rest w m := by
  cases hsimple : simpleEscape? e with
  | some c => exact ⟨[.scalar '\\', e], t, .point c, rfl, .simple hsimple⟩
  | none =>
    by_cases hreturn : e = '\r'
    · subst hreturn
      by_cases hfeed : t.head? = some '\n'
      · obtain ⟨r, rfl⟩ := head?_eq_some_iff.mp hfeed
        exact ⟨['\\', '\r', '\n'], r, .nothing, rfl, .returnAndLineFeed⟩
      · exact ⟨['\\', '\r'], t, .nothing, rfl, .lineEnd (.inl ⟨rfl, hfeed⟩)⟩
    cases hline : isLineTerminator e with
    | true => exact ⟨['\\', e], t, .nothing, rfl, .lineEnd (.inr hline)⟩
    | false =>
      -- what is left are escapes with a number, and those that mean nothing
      by_cases hcode : e = 'u' ∧ ∃ w n, CodeDigits w n ∧ w <+: t
      · obtain ⟨rfl, w, n, hw, r, rfl⟩ := hcode
        exact ⟨'\\' :: 'u' :: w, r, .code n, rfl, .code hw⟩
      by_cases hhex : e = 'x' ∧ ∃ w n, w.length = 2 ∧ hexValue? w = some n ∧ w <+: t
      · obtain ⟨rfl, w, n, hlength, hvalue, r, rfl⟩ := hhex
        exact ⟨'\\' :: 'x' :: w, r, _, rfl, .hex hlength hvalue⟩
      by_cases hzero : e = '0' ∧ t.head?.any CodePoint.isDigit = false
      · obtain ⟨rfl, hrest⟩ := hzero
        exact ⟨['\\', '0'], t, _, rfl, .zero hrest⟩
      refine ⟨['\\', e], t, .point e, rfl, .other hsimple hreturn hline ?_ ?_ ?_⟩
      · exact fun hu w n hw hbegins => hcode ⟨hu, w, n, hw, hbegins⟩
      · exact fun hx w n hlength hvalue hbegins => hhex ⟨hx, w, n, hlength, hvalue, hbegins⟩
      · exact fun hz => by simpa using fun hno => hzero ⟨hz, hno⟩

/-- **Every text begins with a spelling.** -/
theorem exists_spells (c : CodePoint) (t : Text) : ∃ w rest m, c :: t = w ++ rest ∧ Spells rest w m := by
  by_cases hc : c = '\\'
  · subst hc
    cases t with
    | nil => exact ⟨['\\'], [], _, rfl, .last rfl⟩
    | cons e t => exact exists_spells_escape e t
  · exact ⟨[c], t, .point c, rfl, .plain hc⟩

end Phrasebook
