import Mathlib.Data.List.Chain
import Phrasebook.Proofs.Component.Pieces
import Phrasebook.Proofs.Text.Slice

/-!
# What a scanner finds, and what it leaves

A scanner goes through a text and asks at every place whether something begins there; what is found is
skipped. The scanners of string literals, of expressions in double braces and of attributes are of this
kind.

## Main results

* `scanned_scan`, `Scanned.scan_eq` — a text consists of things and of gaps in which nothing begins, and
  is of that form in one way only.
* `IsStringLiteral.stringLength?_append`, `mustacheAt?_mustache`, `AttributeText.attributeAt?_append` —
  what a thing looks like.
* `barren_stringAt?`, `barren_mustacheAt?`, `barren_attributeIn?` — when nothing begins in a gap.
-/

namespace Phrasebook

open List Option Text

variable {c q : CodePoint} {offset : Nat} {gap r t u v e : Text} {a : Attribute}

/-! ## Scanners -/

section Scan

variable {α : Type}

/-- What a scanner finds in a text that begins at an offset; `skip` characters still belong to what has
been found last. -/
def scan (find : Nat → Text → Option (α × Nat)) (offset skip : Nat) : Text → List α
  | [] => []
  | c :: rest =>
    match skip with
    | skip + 1 => scan find (offset + 1) skip rest
    | 0 =>
      match find offset (c :: rest) with
      | none => scan find (offset + 1) 0 rest
      | some (x, length) => x :: scan find (offset + 1) (length - 1) rest

variable {find : Nat → Text → Option (α × Nat)} {offset : Nat}

/-- Nothing is found at the places of a gap, which is followed by `r`. -/
def Barren (find : Nat → Text → Option (α × Nat)) (offset : Nat) (gap r : Text) : Prop :=
  ∀ u v, gap = u ++ v → v ≠ [] → find (offset + u.length) (v ++ r) = none

lemma Barren.nil (r : Text) : Barren find offset [] r := by
  intro u v heq hne
  obtain ⟨-, rfl⟩ := append_eq_nil_iff.mp heq.symm
  exact absurd rfl hne

lemma barren_cons : Barren find offset (c :: gap) r ↔
    find offset (c :: (gap ++ r)) = none ∧ Barren find (offset + 1) gap r := by
  constructor
  · intro h
    refine ⟨h [] (c :: gap) rfl (cons_ne_nil c gap), fun u v heq hne => ?_⟩
    have := h (c :: u) v (by rw [heq]; rfl) hne
    rwa [length_cons, show offset + (u.length + 1) = offset + 1 + u.length by omega] at this
  · rintro ⟨hhere, hrest⟩ u v heq hne
    cases u with
    | nil =>
      rw [nil_append] at heq
      rw [← heq]
      exact hhere
    | cons d u =>
      obtain ⟨rfl, htail⟩ := List.cons.inj heq
      rw [length_cons, show offset + (u.length + 1) = offset + 1 + u.length by omega]
      exact hrest u v htail hne

/-- The end of a gap is a gap. -/
lemma Barren.right (h : Barren find offset (u ++ v) r) : Barren find (offset + u.length) v r := by
  intro u' v' heq hne
  have hnone := h (u ++ u') v' (by rw [heq, append_assoc]) hne
  rwa [length_append, ← Nat.add_assoc] at hnone

/-- A scanner that finds something at a place wherever the text stands. -/
def Movable (find : Nat → Text → Option (α × Nat)) : Prop :=
  ∀ offset offset' t, find offset t = none → find offset' t = none

/-- A gap is one at any offset. -/
lemma Barren.move (hfind : Movable find) (h : Barren find offset gap r) (offset' : Nat) :
    Barren find offset' gap r :=
  fun u v heq hne => hfind _ _ _ (h u v heq hne)

/-- **A text that consists of things and gaps.** -/
inductive Scanned (find : Nat → Text → Option (α × Nat)) : Nat → Text → List α → Prop where
  | done {offset : Nat} {gap : Text} (hgap : Barren find offset gap []) : Scanned find offset gap []
  /-- A gap and a thing, and then the rest. -/
  | found {offset : Nat} {gap v rest : Text} {x : α} {xs : List α}
      (hgap : Barren find offset gap (v ++ rest)) (hne : v ≠ [])
      (hfind : find (offset + gap.length) (v ++ rest) = some (x, v.length))
      (hrest : Scanned find (offset + gap.length + v.length) rest xs) :
    Scanned find offset (gap ++ (v ++ rest)) (x :: xs)

lemma scan_skip (u r : Text) (offset : Nat) :
    scan find offset u.length (u ++ r) = scan find (offset + u.length) 0 r := by
  induction u generalizing offset with
  | nil => rfl
  | cons c u ih =>
    rw [length_cons, cons_append, scan, ih, show offset + 1 + u.length =
      offset + (u.length + 1) by omega]

lemma scan_gap (h : Barren find offset gap r) :
    scan find offset 0 (gap ++ r) = scan find (offset + gap.length) 0 r := by
  induction gap generalizing offset with
  | nil => rfl
  | cons c gap ih =>
    obtain ⟨hhere, hrest⟩ := barren_cons.mp h
    rw [cons_append, scan, hhere]
    simp only
    rw [ih hrest, length_cons, show offset + 1 + gap.length = offset + (gap.length + 1) by omega]

lemma scan_found {rest : Text} {x : α} (hne : v ≠ []) (hfind : find offset (v ++ rest) = some (x, v.length)) :
    scan find offset 0 (v ++ rest) = x :: scan find (offset + v.length) 0 rest := by
  obtain ⟨c, v, rfl⟩ := exists_cons_of_ne_nil hne
  rw [cons_append] at hfind ⊢
  rw [scan, hfind]
  simp only [length_cons, Nat.add_sub_cancel]
  rw [scan_skip, show offset + 1 + v.length = offset + (v.length + 1) by omega]

/-- **The scanner finds the things of which a text consists.** -/
theorem Scanned.scan_eq {xs : List α} (h : Scanned find offset t xs) : scan find offset 0 t = xs := by
  induction h with
  | @done offset gap hgap =>
    have hscan := scan_gap hgap
    rw [append_nil] at hscan
    rw [hscan]
    rfl
  | found hgap hne hfind hrest ih => rw [scan_gap hgap, scan_found hne hfind, ih]

lemma Scanned.cons {xs : List α} (hnone : find offset (c :: t) = none)
    (h : Scanned find (offset + 1) t xs) : Scanned find offset (c :: t) xs := by
  cases h with
  | done hgap =>
    refine .done (barren_cons.mpr ⟨?_, hgap⟩)
    rwa [append_nil]
  | @found _ gap v rest x xs hgap hne hfind hrest =>
    have hlen : offset + 1 + gap.length = offset + (c :: gap).length := by
      rw [length_cons]
      omega
    rw [hlen] at hfind hrest
    exact .found (barren_cons.mpr ⟨hnone, hgap⟩) hne hfind hrest

/-- **A text consists of what the scanner finds, and of gaps.** -/
theorem scanned_scan
    (hfind : ∀ offset c rest x n, find offset (c :: rest) = some (x, n) → 0 < n ∧ n ≤ rest.length + 1)
    (t : Text) (offset : Nat) : Scanned find offset t (scan find offset 0 t) := by
  induction hn : t.length using Nat.strong_induction_on generalizing t offset with
  | _ n ih =>
    cases t with
    | nil => exact .done (.nil _)
    | cons c rest =>
      rw [length_cons] at hn
      cases hfound : find offset (c :: rest) with
      | none =>
        have hrest := ih rest.length (by omega) rest (offset + 1) rfl
        rw [scan, hfound]
        exact hrest.cons hfound
      | some found =>
        obtain ⟨x, length⟩ := found
        obtain ⟨hpos, hle⟩ := hfind offset c rest x length hfound
        -- The text is cut behind what is found.
        obtain ⟨v, r, hsplit, rfl⟩ : ∃ v r, c :: rest = v ++ r ∧ v.length = length :=
          ⟨(c :: rest).take length, (c :: rest).drop length, (take_append_drop ..).symm,
            by rw [length_take, length_cons]; omega⟩
        have hlen : rest.length + 1 = v.length + r.length := by
          rw [← length_cons (a := c), hsplit, length_append]
        rw [hsplit] at hfound ⊢
        have hne : v ≠ [] := length_pos_iff.mp hpos
        rw [scan_found hne hfound]
        exact Scanned.found (.nil _) hne hfound (ih r.length (by omega) r _ rfl)

end Scan

/-! ## String literals -/

/-- The string literal that a text begins with, where the text stands at an offset. -/
def stringAt? (offset : Nat) (t : Text) : Option ((Nat × Nat) × Nat) :=
  (stringLength? t).map fun length => ((offset, offset + length), length)

/-- String literals are found by a scan. -/
lemma stringLiteralsFrom_eq (offset skip : Nat) (t : Text) :
    stringLiteralsFrom offset skip t = scan stringAt? offset skip t := by
  induction t generalizing offset skip with
  | nil => rfl
  | cons c rest ih =>
    cases skip with
    | succ skip => rw [stringLiteralsFrom, scan, ih]
    | zero =>
      rw [stringLiteralsFrom, scan, stringAt?]
      cases stringLength? (c :: rest) <;> simp only [map_none, map_some, ih]

/-- An expression consists of string literals and gaps. -/
lemma scanned_stringLiterals (e : Text) : Scanned stringAt? 0 e (stringLiterals e) := by
  rw [stringLiterals, stringLiteralsFrom_eq]
  refine scanned_scan (fun offset c rest x n h => ?_) e 0
  obtain ⟨length, hlength, heq⟩ := map_eq_some_iff.mp h
  obtain ⟨-, rfl⟩ := Prod.mk.inj heq
  exact stringLength?_spec hlength

/-- Texts that can stand in a string literal with a quote: the quote does not, lines do not end, and
every backslash has something behind it. -/
inductive Passable (q : CodePoint) : Text → Prop where
  | nil : Passable q []
  | plain {c : CodePoint} {rest : Text} (hquote : c ≠ q) (hline : c ≠ '\n')
      (hslash : c ≠ '\\') (hrest : Passable q rest) : Passable q (c :: rest)
  /-- A backslash, and what stands behind it. -/
  | escape {d : CodePoint} {rest : Text} (hline : d ≠ '\n') (hrest : Passable q rest) :
    Passable q ('\\' :: d :: rest)

lemma Passable.append {t' : Text} (h : Passable q t) (h' : Passable q t') : Passable q (t ++ t') := by
  induction h with
  | nil => exact h'
  | plain hquote hline hslash _ ih => exact .plain hquote hline hslash ih
  | escape hline _ ih => exact .escape hline ih

lemma ne_backslash_of_isQuote (hq : q.isQuote) : '\\' ≠ q := by
  rintro rfl
  exact absurd hq (by decide)

/-- A string ends with its first quote that is not escaped. -/
lemma stringRest?_append (hq : q.isQuote) (h : Passable q t) (r : Text) :
    stringRest? q (t ++ q :: r) = some (t.length + 1) := by
  induction h with
  | nil =>
    rw [nil_append, stringRest?.eq_def]
    simp
  | @plain c rest hquote hline hslash _ ih =>
    rw [cons_append, stringRest?.eq_def]
    simp only
    rw [if_neg (by simpa using hquote), if_neg (by simpa using hline), if_neg (by simpa using hslash),
      ih]
    rfl
  | @escape d rest hline _ ih =>
    have hne := ne_backslash_of_isQuote hq
    rw [cons_append, cons_append, stringRest?.eq_def]
    simp only
    rw [if_neg (by simpa using hne), if_neg (by decide), if_pos (by decide),
      if_neg (by simpa using hline), ih]
    rfl

/-- A string literal ends with the first quote that no backslash stands before. -/
lemma exists_of_stringRest? {n : Nat} (h : stringRest? q t = some n) :
    ∃ inner r, t = inner ++ q :: r ∧ Passable q inner ∧ n = inner.length + 1 := by
  fun_induction stringRest? q t generalizing n with
  | case1 => cases h
  | case2 c rest hquote =>
    obtain rfl := eq_of_beq hquote
    obtain rfl := some.inj h
    exact ⟨[], rest, rfl, .nil, rfl⟩
  | case3 => cases h
  | case4 => cases h
  | case5 => cases h
  | case6 c hquote hline hslash d rest hd ih =>
    obtain ⟨m, hm, rfl⟩ := map_eq_some_iff.mp h
    obtain ⟨inner, r, rfl, hinner, rfl⟩ := ih hm
    obtain rfl := eq_of_beq hslash
    exact ⟨_ :: d :: inner, r, rfl, .escape (by simpa using hd) hinner, rfl⟩
  | case7 c rest hquote hline hslash ih =>
    obtain ⟨m, hm, rfl⟩ := map_eq_some_iff.mp h
    obtain ⟨inner, r, rfl, hinner, rfl⟩ := ih hm
    exact ⟨c :: inner, r, rfl, .plain (by simpa using hquote) (by simpa using hline)
      (by simpa using hslash) hinner, rfl⟩

/-- String literals. -/
inductive IsStringLiteral : Text → Prop where
  | mk {q : CodePoint} {inner : Text} (hq : q.isQuote = true) (hinner : Passable q inner) :
    IsStringLiteral (q :: inner ++ [q])

/-- **A text begins with a string literal** whatever stands behind it. -/
theorem IsStringLiteral.stringLength?_append (h : IsStringLiteral v) (r : Text) :
    stringLength? (v ++ r) = some v.length := by
  obtain ⟨hq, hinner⟩ := h
  rename_i q inner
  rw [append_assoc, cons_append, stringLength?, if_pos hq, singleton_append,
    stringRest?_append hq hinner r]
  simp

/-- What is read as a string literal is one. -/
lemma isStringLiteral_of_stringLength? (h : stringLength? (v ++ r) = some v.length) : IsStringLiteral v := by
  cases hv : v ++ r with
  | nil =>
    rw [hv] at h
    cases h
  | cons q t =>
    rw [hv, stringLength?] at h
    split_ifs at h with hq
    obtain ⟨m, hm, hlen⟩ := map_eq_some_iff.mp h
    obtain ⟨inner, r', rfl, hinner, rfl⟩ := exists_of_stringRest? hm
    have hsplit : v ++ r = (q :: inner ++ [q]) ++ r' := by rw [hv]; simp
    obtain ⟨rfl, -⟩ := append_inj hsplit (by simp [← hlen])
    exact .mk hq hinner

/-- Where there are no quotes, no string literal begins. -/
theorem barren_stringAt? (h : ∀ c ∈ gap, c.isQuote = false) (offset : Nat) (r : Text) :
    Barren stringAt? offset gap r := by
  induction gap generalizing offset with
  | nil => exact .nil r
  | cons c gap ih =>
    obtain ⟨hc, hgap⟩ := forall_mem_cons.mp h
    refine barren_cons.mpr ⟨?_, ih hgap (offset + 1)⟩
    rw [stringAt?, stringLength?, if_neg (by simp [hc])]
    rfl

/-! ## Expressions in double braces -/

/-- A text in which a character does not stand twice in a row. -/
def Unpaired (c : CodePoint) (t : Text) : Prop := t.IsChain fun a b => ¬ (a = c ∧ b = c)

instance (c : CodePoint) (t : Text) : Decidable (Unpaired c t) :=
  inferInstanceAs (Decidable (List.IsChain _ t))

namespace Unpaired

variable {c : CodePoint} {t t' : Text}

/-- A text in which the character does not stand at all. -/
lemma of_notMem (h : c ∉ t) : Unpaired c t := by
  induction t with
  | nil => exact .nil
  | cons a t ih =>
    rw [mem_cons, not_or] at h
    exact isChain_cons.mpr ⟨fun b _ hab => h.1 hab.1.symm, ih h.2⟩

/-- Where two texts meet, a pair can arise. -/
lemma append_iff : Unpaired c (t ++ t') ↔
    Unpaired c t ∧ Unpaired c t' ∧ ¬ (t.getLast? = some c ∧ t'.head? = some c) := by
  rw [Unpaired, isChain_append]
  refine and_congr_right fun _ => and_congr_right fun _ => ⟨?_, ?_⟩
  · rintro h ⟨hlast, hhead⟩
    exact h c hlast c hhead ⟨rfl, rfl⟩
  · rintro h x hx y hy ⟨rfl, rfl⟩
    exact h ⟨hx, hy⟩

lemma left (h : Unpaired c (t ++ t')) : Unpaired c t := (append_iff.mp h).1

lemma right (h : Unpaired c (t ++ t')) : Unpaired c t' := (append_iff.mp h).2.1

lemma append_of_head (ht : Unpaired c t) (ht' : Unpaired c t') (hhead : t'.head? ≠ some c) :
    Unpaired c (t ++ t') :=
  append_iff.mpr ⟨ht, ht', fun h => hhead h.2⟩

lemma notMem_append (ht : c ∉ t) (ht' : Unpaired c t') : Unpaired c (t ++ t') :=
  append_iff.mpr ⟨of_notMem ht, ht', fun h => ht (mem_of_getLast? h.1)⟩

lemma append_notMem (ht : Unpaired c t) (ht' : c ∉ t') : Unpaired c (t ++ t') :=
  ht.append_of_head (of_notMem ht') fun h => ht' (mem_of_head? h)

end Unpaired

/-- What a text can be put around without making a pair of a character. -/
def Sealed (c : CodePoint) (t : Text) : Prop := Unpaired c (c :: t ++ [c])

namespace Sealed

variable {c : CodePoint} {t : Text}

/-- A sealed text has no pair, and does not begin or end with the character. -/
lemma iff_of_ne_nil (hne : t ≠ []) :
    Sealed c t ↔ Unpaired c t ∧ t.head? ≠ some c ∧ t.getLast? ≠ some c := by
  rw [Sealed, ← singleton_append, append_assoc, Unpaired.append_iff, Unpaired.append_iff]
  have hhead : (t ++ [c]).head? = t.head? := by
    rw [head?_append_of_ne_nil _ hne]
  have hone : Unpaired c [c] := List.IsChain.singleton c
  rw [hhead]
  simp [hone]
  tauto

/-- Nothing is paired around a sealed text. -/
lemma unpaired_append (h : Sealed c t) (hu : Unpaired c u) (hr : Unpaired c r) :
    Unpaired c (u ++ (t ++ r)) := by
  have hne : t ≠ [] := by
    rintro rfl
    exact (isChain_cons_cons.mp h).1 ⟨rfl, rfl⟩
  obtain ⟨ht, hhead, hlast⟩ := (iff_of_ne_nil hne).mp h
  rw [Unpaired.append_iff, Unpaired.append_iff, head?_append_of_ne_nil _ hne]
  exact ⟨hu, ⟨ht, hr, fun hboth => hlast hboth.1⟩, fun hboth => hhead hboth.2⟩

end Sealed

/-- Where a pair of a character stands first: behind a text in which the character is not paired,
nor with what follows. -/
lemma find?_pair_iff : Text.find? [c, c] (u ++ c :: c :: r) = some u.length ↔ Unpaired c (u ++ [c]) := by
  induction u with
  | nil =>
    rw [nil_append, Text.find?, if_pos (by simp)]
    exact iff_of_true rfl (List.IsChain.singleton c)
  | cons a u ih =>
    have hhead : (u ++ c :: c :: r).head? = (u ++ [c]).head? := by cases u <;> rfl
    rw [cons_append, cons_append, Text.find?, Unpaired, isChain_cons]
    split_ifs with hpair
    · refine iff_of_false (by simp) fun h => ?_
      obtain ⟨s, hs⟩ := isPrefixOf_iff_prefix.mp hpair
      obtain ⟨rfl, htail⟩ := List.cons.inj hs
      refine h.1 c ?_ ⟨rfl, rfl⟩
      rw [mem_def, ← hhead, ← htail]
      rfl
    · rw [length_cons, map_eq_some_iff]
      simp only [Nat.add_right_cancel_iff, exists_eq_right]
      rw [ih, Unpaired]
      refine ⟨fun h => ⟨fun b hb hab => hpair ?_, h⟩, fun h => h.2⟩
      obtain ⟨rfl, rfl⟩ := hab
      rw [← hhead] at hb
      obtain ⟨s, hs⟩ := head?_eq_some_iff.mp hb
      rw [hs]
      simp

/-- What opens an expression. -/
def mustacheOpening : Text := ['\x7b', '\x7b']

/-- What closes an expression. -/
def mustacheClosing : Text := [.scalar '\x7d', .scalar '\x7d']

/-- An expression in double braces. -/
def mustache (e : Text) : Text := mustacheOpening ++ e ++ mustacheClosing

/-- The expression that a text begins with, where the text stands at an offset. -/
def mustacheAt? (offset : Nat) (t : Text) : Option ((Nat × Nat) × Nat) :=
  (if t.startsWith mustacheOpening then Text.findFrom? mustacheClosing t 2 else none).map
    fun close => ((offset + 2, offset + close), close + 2)

/-- Expressions in double braces are found by a scan. -/
lemma mustachesFrom_eq (offset skip : Nat) (t : Text) :
    mustachesFrom offset skip t = scan mustacheAt? offset skip t := by
  induction t generalizing offset skip with
  | nil => rfl
  | cons c rest ih =>
    cases skip with
    | succ skip => rw [mustachesFrom, scan, ih]
    | zero =>
      rw [mustachesFrom, scan, mustacheAt?, show Text.ofString "\x7b\x7b" = mustacheOpening from rfl,
        show Text.ofString "\x7d\x7d" = mustacheClosing from rfl]
      cases if Text.startsWith (c :: rest) mustacheOpening then
          Text.findFrom? mustacheClosing (c :: rest) 2 else none with
      | none => exact ih _ _
      | some close => exact congrArg _ (ih _ _)

/-- Behind two opening braces an expression goes up to the first two closing ones. -/
lemma mustacheAt?_opening (offset : Nat) (t : Text) :
    mustacheAt? offset (mustacheOpening ++ t) =
      (Text.find? mustacheClosing t).map fun n => ((offset + 2, offset + 2 + n), n + 4) := by
  rw [mustacheAt?, if_pos (startsWith_iff.mpr ⟨t, rfl⟩), Text.findFrom?,
    if_pos (by simp [mustacheOpening])]
  change Option.map _ ((Text.find? mustacheClosing t).map (· + 2)) = _
  rw [Option.map_map]
  refine congrArg (Option.map · _) (funext fun n => ?_)
  simp only [Function.comp_apply]
  rw [show offset + (n + 2) = offset + 2 + n by omega]

lemma length_mustache (e : Text) : (mustache e).length = e.length + 4 := by
  simp [mustache, mustacheOpening, mustacheClosing]

/-- **An expression in double braces** ends with the first two that stand together. -/
theorem mustacheAt?_mustache (h : Unpaired (.scalar '\x7d') (e ++ [.scalar '\x7d']))
    (offset : Nat) (r : Text) :
    mustacheAt? offset (mustache e ++ r) =
      some ((offset + 2, offset + 2 + e.length), (mustache e).length) := by
  have hfind : Text.find? mustacheClosing (e ++ (mustacheClosing ++ r)) = some e.length :=
    find?_pair_iff.mpr h
  rw [length_mustache, mustache, append_assoc, append_assoc, mustacheAt?_opening, hfind]
  rfl

/-- What is read as an expression in double braces is one. -/
lemma exists_of_mustacheAt? {x : Nat × Nat} (h : mustacheAt? offset (v ++ r) = some (x, v.length)) :
    ∃ e, v = mustache e ∧ Unpaired (.scalar '\x7d') (e ++ [.scalar '\x7d']) ∧
      x = (offset + 2, offset + 2 + e.length) := by
  obtain ⟨t, ht⟩ : ∃ t, v ++ r = mustacheOpening ++ t := by
    by_contra hno
    rw [mustacheAt?, if_neg fun hopen => hno (startsWith_iff.mp hopen)] at h
    cases h
  rw [ht, mustacheAt?_opening] at h
  obtain ⟨n, hn, heq⟩ := map_eq_some_iff.mp h
  obtain ⟨rfl, hlen⟩ := Prod.mk.inj heq
  obtain ⟨e, r', rfl, rfl⟩ := exists_of_find? hn
  have hsplit : v ++ r = mustache e ++ r' := by rw [ht]; simp [mustache]
  obtain ⟨rfl, -⟩ := append_inj hsplit (by rw [← hlen, length_mustache])
  exact ⟨e, rfl, find?_pair_iff.mp hn, rfl⟩

lemma movable_mustacheAt? : Movable mustacheAt? := by
  intro offset offset' t h
  rw [mustacheAt?, map_eq_none_iff] at h ⊢
  exact h

/-- A text consists of expressions and gaps. -/
lemma scanned_mustaches (offset : Nat) (t : Text) :
    Scanned mustacheAt? offset t (mustaches offset t) := by
  rw [mustaches, mustachesFrom_eq]
  refine scanned_scan (fun offset c rest x n h => ?_) t offset
  obtain ⟨close, hclose, heq⟩ := map_eq_some_iff.mp h
  obtain ⟨-, rfl⟩ := Prod.mk.inj heq
  split_ifs at hclose
  obtain ⟨-, hle⟩ := findFrom?_le hclose
  exact ⟨Nat.succ_pos _, by simpa [mustacheClosing] using hle⟩

/-- Where no two braces stand together, nor one at the end, no expression begins. -/
theorem barren_mustacheAt? (h : Unpaired (.scalar '\x7b') (gap ++ [.scalar '\x7b'])) (offset : Nat) (r : Text) :
    Barren mustacheAt? offset gap r := by
  induction gap generalizing offset with
  | nil => exact .nil r
  | cons c gap ih =>
    obtain ⟨hhead, hgap⟩ := isChain_cons.mp h
    refine barren_cons.mpr ⟨?_, ih hgap (offset + 1)⟩
    rw [mustacheAt?, if_neg, map_none]
    intro hopen
    obtain ⟨s, hs⟩ := startsWith_iff.mp hopen
    obtain ⟨rfl, htail⟩ := List.cons.inj hs
    refine hhead (.scalar '\x7b') ?_ ⟨rfl, rfl⟩
    cases gap with
    | nil => rfl
    | cons d gap =>
      obtain ⟨rfl, -⟩ := List.cons.inj htail
      rfl

/-- In a gap before an expression no two braces stand together, nor one at its end. -/
lemma unpaired_of_barren (h : Barren mustacheAt? offset gap (mustache e ++ r)) :
    Unpaired (.scalar '\x7b') (gap ++ [.scalar '\x7b']) := by
  induction gap generalizing offset with
  | nil => exact List.IsChain.singleton _
  | cons c gap ih =>
    obtain ⟨hnone, hrest⟩ := barren_cons.mp h
    refine isChain_cons.mpr ⟨?_, ih hrest⟩
    rintro d hd ⟨rfl, rfl⟩
    -- the braces that close the expression behind the gap would close this one
    obtain ⟨u, hu⟩ : ∃ u, gap ++ (mustache e ++ r) = .scalar '\x7b' :: (u ++ (mustacheClosing ++ r)) := by
      cases gap with
      | nil => exact ⟨.scalar '\x7b' :: e, by simp [mustache, mustacheOpening]⟩
      | cons d gap =>
        obtain rfl := some.inj hd
        exact ⟨gap ++ mustacheOpening ++ e, by simp [mustache]⟩
    obtain ⟨n, -, hfound⟩ := exists_find?_le mustacheClosing u r
    rw [hu, show ∀ t, .scalar '\x7b' :: .scalar '\x7b' :: t = mustacheOpening ++ t from fun _ => rfl,
      mustacheAt?_opening, map_eq_none_iff] at hnone
    rw [hnone] at hfound
    cases hfound

/-! ## Attributes -/

/-- **The text of an attribute** with a quoted value, cut into its parts. -/
structure AttributeText where
  name : Text
  /-- White space behind the name. -/
  before : Text
  /-- White space behind the equals sign. -/
  after : Text
  quote : QuoteMark
  value : Text
  name_ne : name ≠ []
  name_mem : ∀ c ∈ name, c.isAttributeName = true
  blank_before : ∀ c ∈ before, c.isBlank = true
  blank_after : ∀ c ∈ after, c.isBlank = true
  value_mem : ∀ c ∈ value, c ≠ quote.point

namespace AttributeText

/-- An attribute up to its value. -/
def opening (a : AttributeText) : Text :=
  a.name ++ a.before ++ [.scalar '='] ++ a.after ++ [a.quote.point]

/-- The whole of an attribute. -/
def text (a : AttributeText) : Text := a.opening ++ a.value ++ [a.quote.point]

/-- An attribute that begins at an offset. -/
def placed (a : AttributeText) (offset : Nat) : Attribute :=
  ⟨a.name, a.quote, offset, offset + a.opening.length, offset + a.opening.length + a.value.length⟩

lemma stop_placed (a : AttributeText) (offset : Nat) : (a.placed offset).stop = offset + a.text.length := by
  simp only [Attribute.stop, placed, text, length_append, length_singleton]
  omega

end AttributeText

lemma QuoteMark.ofPoint?_point (q : QuoteMark) : QuoteMark.ofPoint? q.point = some q := by
  cases q <;> decide

lemma QuoteMark.point_of_ofPoint? {q : QuoteMark} (h : QuoteMark.ofPoint? c = some q) : q.point = c := by
  have hq := find?_some h
  exact eq_of_beq hq

lemma QuoteMark.isQuote_point (q : QuoteMark) : q.point.isQuote := by
  cases q <;> decide

lemma isAttributeName_of_isBlank (h : c.isBlank) : c.isAttributeName = false := by
  simp [CodePoint.isAttributeName, h]

/-- **A text begins with an attribute** whatever stands behind it. -/
theorem AttributeText.attributeAt?_append (a : AttributeText) (offset : Nat) (r : Text) :
    attributeAt? offset (a.text ++ r) = some (a.placed offset) := by
  have hblank : a.quote.point.isBlank = false := by cases a.quote <;> decide
  -- the text from each part on
  set value := a.quote.point :: (a.value ++ a.quote.point :: r) with hvalue
  set equals := .scalar '=' :: (a.after ++ value) with hequals
  have htext : a.text ++ r = a.name ++ (a.before ++ equals) := by
    simp [text, opening, hequals, hvalue]
  have hname : (a.text ++ r).takeWhile CodePoint.isAttributeName = a.name := by
    rw [htext]
    refine takeWhile_append_of_head a.name_mem fun c hc => ?_
    rcases hbefore : a.before with _ | ⟨d, before⟩
    · rw [hbefore] at hc
      obtain rfl := some.inj hc
      decide
    · rw [hbefore] at hc
      obtain rfl := some.inj hc
      exact isAttributeName_of_isBlank (a.blank_before d (by simp [hbefore]))
  have hdrop : (a.text ++ r).drop a.name.length = a.before ++ equals := by
    rw [htext, drop_left]
  have hbefore : (a.before ++ equals).takeWhile CodePoint.isBlank = a.before :=
    takeWhile_append_of_head a.blank_before fun c hc => by
      obtain rfl := some.inj hc
      decide
  have hdrop' : (a.before ++ equals).drop a.before.length = equals := drop_left
  have hafter : (equals.drop 1).takeWhile CodePoint.isBlank = a.after :=
    takeWhile_append_of_head a.blank_after fun c hc => by
      obtain rfl := some.inj hc
      exact hblank
  have hdrop'' : equals.drop (1 + a.after.length) = value := by
    rw [Nat.add_comm, drop_succ_cons, drop_left]
  have hinside : (value.drop 1).takeWhile (fun c => c != a.quote.point) = a.value :=
    takeWhile_append_of_head (fun c hc => by simpa using a.value_mem c hc) fun c hc => by
      obtain rfl := some.inj hc
      simp
  have hlen : a.opening.length = a.name.length + a.before.length + a.after.length + 2 := by
    simp only [opening, length_append, length_singleton]
    omega
  rw [attributeAt?]
  simp only [hname, hdrop, hbefore, hdrop', hafter, hdrop'']
  have hquote : value.head?.bind QuoteMark.ofPoint? = some a.quote := a.quote.ofPoint?_point
  rw [hquote]
  simp only [bind_eq_bind, bind_some, hinside]
  rw [if_neg, placed, hlen]
  · simp only [Nat.add_assoc]
  · simp [a.name_ne, hequals, hvalue]

/-- The attribute that is found is the text that it has. -/
lemma exists_of_attributeAt? (h : attributeAt? offset t = some a) :
    ∃ (text : AttributeText) (r : Text), t = text.text ++ r ∧ a = text.placed offset := by
  rw [attributeAt?] at h
  simp only at h
  set name := t.takeWhile CodePoint.isAttributeName
  set blanks := (t.drop name.length).takeWhile CodePoint.isBlank
  set equals := (t.drop name.length).drop blanks.length
  set more := (equals.drop 1).takeWhile CodePoint.isBlank
  obtain ⟨quote, hquote, h⟩ := bind_eq_some_iff.mp h
  set value := equals.drop (1 + more.length)
  set inside := (value.drop 1).takeWhile fun c => c != quote.point
  split_ifs at h with hcond
  simp only [Bool.or_eq_true, bne_iff_ne, decide_eq_true_eq, not_or, ne_eq, not_not] at hcond
  obtain ⟨⟨hname, hequals⟩, hlen⟩ := hcond
  obtain rfl := some.inj h
  obtain ⟨point, hpoint, hofPoint⟩ := bind_eq_some_iff.mp hquote
  obtain rfl := QuoteMark.point_of_ofPoint? hofPoint
  -- the text is put together again, from the back to the front
  have hvalue : value = quote.point :: value.drop 1 := by
    obtain ⟨rest, hrest⟩ := head?_eq_some_iff.mp hpoint
    rw [hrest]
    rfl
  obtain ⟨stop, r, hstop, hclosed⟩ : ∃ stop r, (stop != quote.point) = false ∧
      value.drop 1 = inside ++ stop :: r :=
    exists_of_length_takeWhile_lt (show inside.length < _ by rw [length_drop]; omega)
  obtain rfl : stop = quote.point := by simpa using hstop
  have hmore : more ++ value = equals.drop 1 := by
    have hdrop : value = (equals.drop 1).drop more.length := by rw [drop_drop]
    rw [hdrop]
    exact prefix_iff_eq_append.mp (List.takeWhile_prefix _)
  have hequals' : equals = .scalar '=' :: equals.drop 1 := by
    obtain ⟨rest, hrest⟩ := head?_eq_some_iff.mp hequals
    rw [hrest]
    rfl
  have hblanks : blanks ++ equals = t.drop name.length :=
    prefix_iff_eq_append.mp (List.takeWhile_prefix _)
  have ht : name ++ t.drop name.length = t := prefix_iff_eq_append.mp (List.takeWhile_prefix _)
  let text : AttributeText :=
    { name := name, before := blanks, after := more, quote := quote, value := inside
      name_ne := fun hnil => hname (List.isEmpty_iff.mpr hnil)
      name_mem := fun c hc => mem_takeWhile_imp hc
      blank_before := fun c hc => mem_takeWhile_imp hc
      blank_after := fun c hc => mem_takeWhile_imp hc
      value_mem := fun c hc => by simpa using mem_takeWhile_imp hc }
  refine ⟨text, r, ?_, ?_⟩
  · rw [← ht, ← hblanks, hequals', ← hmore, hvalue, hclosed]
    simp [AttributeText.text, AttributeText.opening, text]
  · simp only [AttributeText.placed, AttributeText.opening, text, length_append,
      length_singleton, Attribute.mk.injEq, true_and]
    omega

/-- The attribute that a text begins with, with its length, where the text stands at an offset. -/
def attributeIn? (offset : Nat) (t : Text) : Option (Attribute × Nat) :=
  (attributeAt? offset t).map fun a => (a, a.stop - offset)

/-- Attributes are found by a scan. -/
lemma attributesFrom_eq (offset skip : Nat) (t : Text) :
    attributesFrom offset skip t = scan attributeIn? offset skip t := by
  induction t generalizing offset skip with
  | nil => rfl
  | cons c rest ih =>
    cases skip with
    | succ skip => exact ih (offset + 1) skip
    | zero =>
      rw [attributesFrom_zero, scan, attributeIn?]
      cases attributeAt? offset (c :: rest) <;> simp only [map_none, map_some, ih]

/-- An attribute is read as it is written. -/
lemma AttributeText.attributeIn?_append (a : AttributeText) (offset : Nat) (r : Text) :
    attributeIn? offset (a.text ++ r) = some (a.placed offset, a.text.length) := by
  rw [attributeIn?, a.attributeAt?_append, map_some, a.stop_placed, Nat.add_sub_cancel_left]

/-- What is read as an attribute is one. -/
lemma exists_of_attributeIn? (h : attributeIn? offset (v ++ r) = some (a, v.length)) :
    ∃ text : AttributeText, v = text.text ∧ a = text.placed offset := by
  obtain ⟨a', ha', heq⟩ := map_eq_some_iff.mp h
  obtain ⟨rfl, hlen⟩ := Prod.mk.inj heq
  obtain ⟨text, r', hsplit, rfl⟩ := exists_of_attributeAt? ha'
  rw [text.stop_placed, Nat.add_sub_cancel_left] at hlen
  exact ⟨text, (append_inj hsplit hlen.symm).1, rfl⟩

lemma movable_attributeIn? : Movable attributeIn? := by
  intro offset offset' t h
  by_contra hsome
  obtain ⟨⟨a, length⟩, ha⟩ := ne_none_iff_exists'.mp hsome
  obtain ⟨a', ha', -⟩ := map_eq_some_iff.mp ha
  obtain ⟨text, r, rfl, -⟩ := exists_of_attributeAt? ha'
  rw [text.attributeIn?_append] at h
  cases h

/-- A text consists of attributes and gaps. -/
lemma scanned_attributes (offset : Nat) (t : Text) :
    Scanned attributeIn? offset t (attributesFrom offset 0 t) := by
  rw [attributesFrom_eq]
  refine scanned_scan (fun offset c rest x n h => ?_) t offset
  obtain ⟨a, ha, heq⟩ := map_eq_some_iff.mp h
  obtain ⟨rfl, rfl⟩ := Prod.mk.inj heq
  obtain ⟨text, r, hsplit, rfl⟩ := exists_of_attributeAt? ha
  have hlen := congrArg List.length hsplit
  rw [length_cons, length_append] at hlen
  have hpos : 0 < text.text.length := by
    simp only [AttributeText.text, length_append, length_singleton]
    omega
  rw [text.stop_placed]
  omega

/-- An attribute begins with its name. -/
lemma AttributeText.head_text (a : AttributeText) (r : Text) :
    ∀ c ∈ (a.text ++ r).head?, c.isAttributeName := by
  intro c hc
  obtain ⟨d, name, hname⟩ := exists_cons_of_ne_nil a.name_ne
  rw [text, opening, hname] at hc
  obtain rfl := some.inj hc
  exact a.name_mem d (by rw [hname]; exact mem_cons_self)

/-- A gap before an attribute does not end with a character of names: the attribute would have begun
with it. -/
lemma last_of_barren {a : AttributeText} (h : Barren attributeIn? offset gap (a.text ++ r)) :
    ∀ c ∈ gap.getLast?, c.isAttributeName = false := by
  intro c hc
  by_contra hname
  rw [Bool.not_eq_false] at hname
  obtain ⟨u, rfl⟩ := getLast?_eq_some_iff.mp hc
  have hnone := h u [c] rfl (cons_ne_nil c [])
  let longer : AttributeText :=
    { a with
      name := c :: a.name
      name_ne := cons_ne_nil c a.name
      name_mem := forall_mem_cons.mpr ⟨hname, a.name_mem⟩ }
  have hfound := longer.attributeIn?_append (offset + u.length) r
  rw [show [c] ++ (a.text ++ r) = longer.text ++ r from rfl, hfound] at hnone
  cases hnone

/-- **Where there are no quotes no attribute begins**, if a name does not begin there that goes on
behind.

**Proof sketch.** An attribute that begins in the gap has its first quote behind it. What follows the
gap is then a part of the attribute before that quote; since it is a character of names, the gap ends
within the name. -/
theorem barren_attributeIn? (hquote : ∀ c ∈ gap, c.isQuote = false)
    (hlast : ∀ c ∈ gap.getLast?, c.isAttributeName = false) (hnext : ∀ c ∈ r.head?, c.isAttributeName)
    (offset : Nat) : Barren attributeIn? offset gap r := by
  rintro u v rfl hne
  rw [attributeIn?, map_eq_none_iff]
  by_contra hsome
  obtain ⟨a, ha⟩ := ne_none_iff_exists'.mp hsome
  obtain ⟨text, s, hsplit, -⟩ := exists_of_attributeAt? ha
  have hnoquote : text.quote.point ∉ v := fun hmem => by
    have := hquote _ (mem_append_right u hmem)
    rw [text.quote.isQuote_point] at this
    cases this
  have hin : text.quote.point ∈ text.opening := by simp [AttributeText.opening]
  rw [AttributeText.text, append_assoc, append_assoc] at hsplit
  rcases append_eq_append_iff.mp hsplit with ⟨x, hx, hr⟩ | ⟨x, hx, -⟩
  · cases x with
    | nil =>
      rw [hx, append_nil] at hin
      exact hnoquote hin
    | cons c x =>
      have hc : c.isAttributeName := hnext c (by rw [hr]; rfl)
      rw [AttributeText.opening, append_assoc, append_assoc, append_assoc] at hx
      rcases append_eq_append_iff.mp hx with ⟨z, rfl, hz⟩ | ⟨z, hz, -⟩
      · -- what follows would be white space, the equals sign or the quote
        have hmem : c ∈ text.before ++ ([.scalar '='] ++ (text.after ++ [text.quote.point])) := by
          rw [hz]
          simp
        simp only [mem_append, mem_singleton] at hmem
        rcases hmem with hmem | rfl | hmem | rfl
        · rw [isAttributeName_of_isBlank (text.blank_before c hmem)] at hc
          cases hc
        · exact absurd hc (by decide)
        · rw [isAttributeName_of_isBlank (text.blank_after c hmem)] at hc
          cases hc
        · cases hq : text.quote <;> rw [hq] at hc <;> exact absurd hc (by decide)
      · -- the gap would end within the name
        have hmem : v.getLast hne ∈ text.name := by
          rw [hz]
          exact mem_append_left z (getLast_mem hne)
        have hfalse := hlast (v.getLast hne) (by
          rw [getLast?_append_of_ne_nil _ hne, getLast?_eq_some_getLast hne]
          rfl)
        rw [text.name_mem _ hmem] at hfalse
        cases hfalse
  · rw [hx] at hnoquote
    exact hnoquote (mem_append_left x hin)

end Phrasebook
