import Mathlib.Data.List.Induction
import Phrasebook.Proofs.Message.Arguments
import Phrasebook.Proofs.Message.Reading

/-!
# What a payload binds

A payload in plain text binds numbered names to its expressions, and binds each name that stands in braces to
itself.

## Main results

* `mem_informalArguments_iff` — if a name is bound more than once, the first binding stays.
* `readings_agree_iff` — when placeholders and bindings are for the same expressions: a name in braces that
  is written like a numbered one can take the place of an expression.
-/

namespace Phrasebook

open List Option

variable {k offset : Nat} {x : Nat × Argument} {name payload rest inner : Text} {after : Bool}
  {b : Argument}

open MessageItem

/-! ## Names in braces -/

/-- A name in braces stands at an offset of a payload, and no dollar before it. -/
@[mk_iff]
structure IsNameAt (payload : Text) (offset : Nat) (name : Text) : Prop where
  braced : bracedName? (payload.drop offset) = some name
  not_dollar : (payload.take offset).getLast? ≠ some '$'

instance (payload : Text) (offset : Nat) (name : Text) : Decidable (IsNameAt payload offset name) :=
  decidable_of_iff _ (isNameAt_iff payload offset name).symm

lemma namedArguments_point {c : CodePoint} (h : after ∨ bracedName? (c :: rest) = none) (offset : Nat) :
    namedArguments after offset 0 (c :: rest) = namedArguments (c == '$') (offset + 1) 0 rest := by
  have hnone : (if after then none else bracedName? (c :: rest)) = none := by
    rcases h with rfl | hnone
    · rfl
    · rw [hnone, ite_self]
  rw [namedArguments, hnone]

lemma namedArguments_skip {u : Text} (rest : Text) (offset : Nat) {skip : Nat}
    (hskip : skip = u.length) (hafter : u = [] → after = false) :
    namedArguments after offset skip (u ++ rest) = namedArguments false (offset + u.length) 0 rest := by
  induction u generalizing after offset skip with
  | nil =>
    rw [hskip, hafter rfl]
    rfl
  | cons c u ih =>
    rw [hskip, length_cons, cons_append, namedArguments, ih _ rfl fun _ => rfl, Nat.add_assoc,
      Nat.add_comm 1]

/-- A name in braces is bound. -/
lemma namedArguments_name (h : bracedName? ("\x7b" ++ (name ++ ("\x7d" ++ rest))) = some name) (offset : Nat) :
    namedArguments false offset 0 ("\x7b" ++ (name ++ ("\x7d" ++ rest))) =
      (offset, ⟨name, name⟩) :: namedArguments false (offset + (name.length + 2)) 0 rest := by
  have hsplit : ("\x7b" ++ (name ++ ("\x7d" ++ rest)) : Text) =
      .scalar '\x7b' :: ((name ++ [.scalar '\x7d']) ++ rest) := by simp [Text.ofString]
  rw [hsplit] at h ⊢
  rw [namedArguments, if_neg Bool.false_ne_true, h]
  simp only
  rw [namedArguments_skip rest (offset + 1) (by simp) (by simp), length_append, length_singleton,
    Nat.add_assoc, Nat.add_comm 1]

/-- No name in braces begins inside of another one. -/
lemma not_isNameAt_inside {done : Text} (hbrace : .scalar '\x7b' ∉ name) {i : Nat} {other : Text}
    (hlt : done.length < i) (hle : i < done.length + (name.length + 2)) :
    ¬ IsNameAt (done ++ ("\x7b" ++ (name ++ ("\x7d" ++ rest)))) i other := by
  intro h
  obtain ⟨-, -, tail, htail⟩ := exists_of_bracedName? h.braced
  obtain ⟨j, rfl⟩ := Nat.exists_eq_add_of_lt hlt
  have hj : j < (name ++ [CodePoint.scalar '\x7d']).length := by
    rw [length_append, length_singleton]
    omega
  have hdrop : (done ++ ("\x7b" ++ (name ++ ("\x7d" ++ rest)))).drop (done.length + j + 1) =
      ((name ++ [CodePoint.scalar '\x7d']) ++ rest).drop j := by
    rw [Nat.add_assoc, drop_length_add_append]
    simp [Text.ofString]
  rw [hdrop, drop_append_of_le_length hj.le, drop_eq_getElem_cons hj] at htail
  have hmem := getElem_mem hj
  rw [(List.cons.inj htail).1] at hmem
  rcases mem_append.mp hmem with hmem | hmem
  · exact hbrace hmem
  · exact absurd hmem (by decide)

/-- The names in braces of a payload, from a point on.

**Proof sketch.** Induction on the length of the text. Where a name stands, the walk goes on behind its
closing brace, and no name begins before that; where none stands, it goes on with the next character. -/
lemma mem_namedArguments_from (done t : Text) :
    x ∈ namedArguments (done.getLast? == some '$') done.length 0 t ↔
      ∃ name, done.length ≤ x.1 ∧ x.2 = ⟨name, name⟩ ∧ IsNameAt (done ++ t) x.1 name := by
  induction hlength : t.length using Nat.strong_induction_on generalizing done t with
  | _ length ih =>
    subst hlength
    cases t with
    | nil =>
      refine iff_of_false not_mem_nil ?_
      rintro ⟨name, hle, -, hname⟩
      have hbraced := hname.braced
      rw [append_nil, drop_eq_nil_of_le hle] at hbraced
      cases hbraced
    | cons c rest =>
      by_cases hpoint : (done.getLast? == some '$') ∨ bracedName? (c :: rest) = none
      · have hnext : (c == '$') = ((done ++ [c]).getLast? == some '$') := by simp
        have hrest := @ih _ (Nat.lt_succ_self _) (done ++ [c]) rest rfl
        rw [← hnext, append_assoc, singleton_append, length_append,
          length_singleton] at hrest
        rw [namedArguments_point hpoint, hrest]
        refine exists_congr fun name => and_congr_left fun hname => ⟨Nat.le_of_succ_le, fun hle => ?_⟩
        -- no name stands at this character
        refine lt_of_le_of_ne hle fun heq => ?_
        obtain ⟨hbraced, hdollar⟩ := hname.2
        rw [← heq, drop_left] at hbraced
        rw [← heq, take_left] at hdollar
        rcases hpoint with hafter | hnone
        · exact hdollar (beq_iff_eq.mp hafter)
        · rw [hnone] at hbraced
          cases hbraced
      · obtain ⟨hafter, hsome⟩ := not_or.mp hpoint
        obtain ⟨name, hname⟩ := ne_none_iff_exists'.mp hsome
        obtain ⟨hbrace, -, after, heq⟩ := exists_of_bracedName? hname
        rw [heq] at ih hname ⊢
        have hbefore : (done.getLast? == some '$') = false := by simpa using hafter
        have hdone : ((done ++ ("\x7b" ++ (name ++ "\x7d"))).getLast? == some '$') = false := by
          rw [← append_assoc, ← append_assoc]
          exact (congrArg (· == some (CodePoint.scalar '$')) getLast?_concat).trans (by decide)
        have hall : done ++ ("\x7b" ++ (name ++ "\x7d")) ++ after =
            done ++ ("\x7b" ++ (name ++ ("\x7d" ++ after))) := by
          simp only [append_assoc]
        have hlength : (done ++ ("\x7b" ++ (name ++ "\x7d"))).length = done.length + (name.length + 2) := by
          simp [Text.ofString]
        have hrest := ih after.length (by simp [Text.ofString]; omega) (done ++ ("\x7b" ++ (name ++ "\x7d")))
          after rfl
        rw [hdone, hall, hlength] at hrest
        rw [hbefore, namedArguments_name hname, mem_cons, hrest]
        constructor
        · rintro (rfl | ⟨other, hle, hother⟩)
          · refine ⟨name, le_refl _, rfl, by rwa [drop_left], ?_⟩
            rw [take_left]
            exact fun hdollar => hafter (beq_iff_eq.mpr hdollar)
          · exact ⟨other, by omega, hother⟩
        · rintro ⟨other, hle, hargument, hother⟩
          rcases eq_or_lt_of_le hle with hhere | hlt
          · have hbraced := hother.braced
            rw [← hhere, drop_left, hname] at hbraced
            obtain rfl := some.inj hbraced
            exact .inl (Prod.ext hhere.symm hargument)
          · refine .inr ⟨other, ?_, hargument, hother⟩
            by_contra hinside
            exact not_isNameAt_inside hbrace hlt (by omega) hother

lemma mem_namedArguments_iff (payload : Text) :
    x ∈ namedArguments false 0 0 payload ↔ ∃ name, x.2 = ⟨name, name⟩ ∧ IsNameAt payload x.1 name :=
  (mem_namedArguments_from [] payload).trans
    (exists_congr fun _ => and_iff_right (Nat.zero_le _))

/-! ## Bindings -/

/-- A binding of a payload, and where it stands. -/
inductive Binds (payload : Text) : Nat → Argument → Prop
  /-- An expression is bound to the name with its number. -/
  | expression {k offset : Nat} {inner : Text}
      (h : (located 0 (reading false payload))[k]? = some (offset, inner)) :
      Binds payload offset ⟨argumentName (k + 1), inner.trim⟩
  /-- A name in braces is bound to itself. -/
  | name {offset : Nat} {name : Text} (h : IsNameAt payload offset name) : Binds payload offset ⟨name, name⟩

/-- What is bound is found by one of the two searches. -/
lemma binds_iff :
    Binds payload x.1 x.2 ↔ x ∈ positionalArguments 0 0 0 payload ++ namedArguments false 0 0 payload := by
  obtain ⟨offset, a⟩ := x
  rw [mem_append, positionalArguments_eq, mem_mapIdx, mem_namedArguments_iff]
  constructor
  · rintro (h | h)
    · obtain ⟨hk, heq⟩ := List.getElem?_eq_some_iff.mp h
      exact .inl ⟨_, hk, by rw [heq]⟩
    · exact .inr ⟨_, rfl, h⟩
  · rintro (⟨k, hk, heq⟩ | ⟨name, rfl, h⟩)
    · obtain ⟨rfl, rfl⟩ := Prod.mk.inj heq
      exact .expression (getElem?_eq_getElem hk)
    · exact .name h

/-- Different numbers make different names. -/
lemma argumentName_injective {m n : Nat} (h : argumentName m = argumentName n) : m = n := by
  have hdigits : Nat.toDigits 10 m = Nat.toDigits 10 n :=
    map_injective_iff.mpr (fun _ _ => CodePoint.scalar.inj) (append_cancel_left h)
  rw [← @Nat.ofDigitChars_toDigits 10 m (by decide) (by decide), hdigits,
    Nat.ofDigitChars_toDigits (by decide) (by decide)]

lemma MessageItem.index_eq_of_offset {items : List MessageItem} {k' : Nat} {inner' : Text}
    (h : (located 0 items)[k]? = some (offset, inner)) (h' : (located 0 items)[k']? = some (offset, inner')) :
    k = k' := by
  obtain ⟨hk, heq⟩ := List.getElem?_eq_some_iff.mp h
  obtain ⟨hk', heq'⟩ := List.getElem?_eq_some_iff.mp h'
  have hpair := pairwise_iff_getElem.mp (pairwise_located 0 items)
  rcases Nat.lt_trichotomy k k' with hlt | rfl | hlt
  · have hoffset := hpair k k' hk hk' hlt
    rw [heq, heq'] at hoffset
    exact absurd hoffset (lt_irrefl _)
  · rfl
  · have hoffset := hpair k' k hk' hk hlt
    rw [heq, heq'] at hoffset
    exact absurd hoffset (lt_irrefl _)

/-- Where an expression stands, no name does. -/
lemma not_isNameAt_located {x : Nat × Text} (h : x ∈ located 0 (reading false payload)) :
    ¬ IsNameAt payload x.1 name := by
  intro hname
  obtain ⟨-, -, rest, hbraced⟩ := exists_of_bracedName? hname.braced
  obtain ⟨rest', hdollar⟩ := drop_of_mem_located h
  rw [hdollar] at hbraced
  exact absurd (List.cons.inj hbraced).1 (by decide)

/-- Two bindings stand at different offsets. -/
lemma Binds.unique {a : Argument} (ha : Binds payload offset a) (hb : Binds payload offset b) : a = b := by
  rcases ha with ha | ha <;> rcases hb with hb | hb
  · obtain rfl := index_eq_of_offset ha hb
    obtain ⟨-, rfl⟩ := Prod.mk.inj (some.inj (ha.symm.trans hb))
    rfl
  · exact absurd hb (not_isNameAt_located (mem_of_getElem? ha))
  · exact absurd ha (not_isNameAt_located (mem_of_getElem? hb))
  · obtain rfl := some.inj (ha.braced.symm.trans hb.braced)
    rfl

/-- Of the arguments with one name the first stays. -/
lemma mem_dropRepeated_iff (l : List Argument) (a : Argument) :
    a ∈ dropRepeated l ↔ l.find? (fun b => b.name == a.name) = some a := by
  induction l using List.reverseRecOn generalizing a with
  | nil => simp [dropRepeated]
  | append_singleton l last ih =>
    have hstep : dropRepeated (l ++ [last]) =
        if (dropRepeated l).any fun b => b.name == last.name then dropRepeated l
        else dropRepeated l ++ [last] := foldl_append
    rw [hstep, List.find?_append]
    cases hfind : l.find? (fun b => b.name == a.name) with
    | some c =>
      have hname : c.name = a.name := by simpa using find?_some hfind
      have hkept : c ∈ dropRepeated l := (ih c).mpr (by rw [hname, hfind])
      rw [some_or, ← hfind, ← ih a]
      split_ifs with hany
      · rfl
      · rw [mem_append, mem_singleton, or_iff_left]
        rintro rfl
        exact hany (any_eq_true.mpr ⟨c, hkept, beq_iff_eq.mpr hname⟩)
    | none =>
      have hnew : a ∉ dropRepeated l := by simp [ih, hfind]
      rw [none_or]
      split_ifs with hany
      · refine iff_of_false hnew fun hlast => ?_
        obtain rfl := mem_singleton.mp (mem_of_find?_eq_some hlast)
        obtain ⟨b, hb, hname⟩ := any_eq_true.mp hany
        exact find?_eq_none.mp hfind b (dropRepeated_subset l hb) hname
      · rw [mem_append, mem_singleton, or_iff_right hnew]
        constructor
        · rintro rfl
          simp
        · exact fun hlast => mem_singleton.mp (mem_of_find?_eq_some hlast)

/-- What is found first in a list that ascends is the least that can be found. -/
lemma le_of_find?_ascending {α : Type} {key : α → Nat} {l : List α} (hl : l.Pairwise fun x y => key x ≤ key y)
    {p : α → Bool} {x y : α} (hx : l.find? p = some x) (hy : y ∈ l) (hp : p y) : key x ≤ key y := by
  obtain ⟨-, before, after, rfl, hbefore⟩ := find?_eq_some_iff_append.mp hx
  rcases mem_append.mp hy with hy | hy
  · exact absurd hp (by simpa using hbefore y hy)
  · rcases mem_cons.mp hy with rfl | hy
    · exact le_refl _
    · exact rel_of_pairwise_cons (pairwise_append.mp hl).2.1 hy

/-- **Of the bindings with one name, the first stays.** -/
theorem mem_informalArguments_iff (payload : Text) (a : Argument) :
    a ∈ informalArguments payload ↔ ∃ offset, Binds payload offset a ∧
      ∀ other b, Binds payload other b → b.name = a.name → offset ≤ other := by
  rw [informalArguments, mem_dropRepeated_iff, find?_map, map_eq_some_iff]
  set sorted := sortAscending (fun f => [(f.1 : Int)])
    (positionalArguments 0 0 0 payload ++ namedArguments false 0 0 payload)
  have hmem : ∀ x, x ∈ sorted ↔ Binds payload x.1 x.2 := fun x =>
    (sortAscending_perm _ _).mem_iff.trans binds_iff.symm
  have hpair : sorted.Pairwise fun x y => x.1 ≤ y.1 := by
    refine (pairwise_sortAscending (fun f : Nat × Argument => [(f.1 : Int)]) _).imp fun h => ?_
    exact Int.ofNat_le.mp (le_of_keysLe_cons h)
  constructor
  · rintro ⟨x, hx, rfl⟩
    refine ⟨x.1, (hmem x).mp (mem_of_find?_eq_some hx), fun other b hb hname => ?_⟩
    exact le_of_find?_ascending hpair hx ((hmem (other, b)).mpr hb) (beq_iff_eq.mpr hname)
  · rintro ⟨offset, hbinds, hleast⟩
    have hin : (offset, a) ∈ sorted := (hmem (offset, a)).mpr hbinds
    have hsome : (sorted.find? ((fun b : Argument => b.name == a.name) ∘ Prod.snd)).isSome :=
      find?_isSome.mpr ⟨(offset, a), hin, beq_self_eq_true a.name⟩
    obtain ⟨x, hx⟩ := isSome_iff_exists.mp hsome
    have hxbinds := (hmem x).mp (mem_of_find?_eq_some hx)
    have hname : x.2.name = a.name := by simpa using find?_some hx
    have hoffset : x.1 = offset :=
      le_antisymm (le_of_find?_ascending hpair hx hin (beq_self_eq_true a.name))
        (hleast x.1 x.2 hxbinds hname)
    exact ⟨x, hx, Binds.unique (hoffset ▸ hxbinds) hbinds⟩

/-! ## Agreement -/

/-- What binds the name with a number: the expression with this number, or the name in braces. -/
lemma Binds.of_argumentName {other : Nat} (hb : Binds payload other b) (hname : b.name = argumentName (k + 1)) :
    (∃ inner, (located 0 (reading false payload))[k]? = some (other, inner)) ∨
      (IsNameAt payload other (argumentName (k + 1)) ∧ b.expression = argumentName (k + 1)) := by
  rcases hb with hb | hb
  · obtain rfl := Nat.succ.inj (argumentName_injective hname)
    exact .inl ⟨_, hb⟩
  · exact .inr ⟨hname ▸ hb, hname⟩

/-- When an expression keeps its binding: no name in braces before it is written like its numbered name,
unless this name is the expression. -/
lemma mem_informalArguments_located (h : (located 0 (reading false payload))[k]? = some (offset, inner)) :
    ⟨argumentName (k + 1), inner.trim⟩ ∈ informalArguments payload ↔
      ∀ i < offset, IsNameAt payload i (argumentName (k + 1)) → inner.trim = argumentName (k + 1) := by
  have hsame : ∀ {other : Nat} {inner' : Text},
      (located 0 (reading false payload))[k]? = some (other, inner') → other = offset := fun h' =>
    (Prod.mk.inj (some.inj (h'.symm.trans h))).1
  rw [mem_informalArguments_iff]
  constructor
  · rintro ⟨other, hbinds, hleast⟩ i hi hname
    rcases hbinds.of_argumentName rfl with ⟨inner', h'⟩ | ⟨-, hexpression⟩
    · have hle := hleast i _ (.name hname) rfl
      rw [hsame h'] at hle
      omega
    · exact hexpression
  · intro hnames
    by_cases hexists : ∃ i, i < offset ∧ IsNameAt payload i (argumentName (k + 1))
    · -- the first of the names takes its place, and is the same binding
      obtain ⟨hlt, hname⟩ := Nat.find_spec hexists
      rw [hnames _ hlt hname]
      refine ⟨Nat.find hexists, .name hname, fun other b hb hb' => ?_⟩
      rcases hb.of_argumentName hb' with ⟨inner', h'⟩ | ⟨hother, -⟩
      · rw [hsame h']
        exact hlt.le
      · by_contra hbefore
        exact Nat.find_min hexists (Nat.lt_of_not_le hbefore) ⟨by omega, hother⟩
    · refine ⟨offset, .expression h, fun other b hb hb' => ?_⟩
      rcases hb.of_argumentName hb' with ⟨inner', h'⟩ | ⟨hother, -⟩
      · rw [hsame h']
      · by_contra hbefore
        exact hexists ⟨other, Nat.lt_of_not_le hbefore, hother⟩

/-- **Placeholders and bindings are for the same expressions**: both readings of a payload are the same, and
each expression is bound to the name of its placeholder. -/
structure ReadingsAgree (payload : Text) : Prop where
  same : reading true payload = reading false payload
  bound : ∀ k offset inner, (located 0 (reading false payload))[k]? = some (offset, inner) →
    ⟨argumentName (k + 1), inner.trim⟩ ∈ informalArguments payload

/-- **When placeholders and bindings are for the same expressions.** The canonical text of a payload is that
of a reading in which escaped expressions are text, with placeholders for the others; what the payload binds
are the expressions of a reading in which all of them count, and names in braces, and of the bindings with one
name the first stays. Both are for the same expressions if and only if every expression stands behind an even
run of backslashes, and no name in braces before it is written like its numbered name, unless this name is the
expression. -/
theorem readings_agree_iff (payload : Text) :
    spell (reading true payload) = payload ∧ spell (reading false payload) = payload ∧
      canonicalize payload = message 1 (reading true payload) ∧
      (∀ a, a ∈ informalArguments payload ↔ ∃ offset, Binds payload offset a ∧
        ∀ other b, Binds payload other b → b.name = a.name → offset ≤ other) ∧
      (ReadingsAgree payload ↔ ∀ k offset inner,
        (located 0 (reading false payload))[k]? = some (offset, inner) →
          endingBackslashes (payload.take offset) % 2 = 0 ∧
          ∀ i < offset, IsNameAt payload i (argumentName (k + 1)) → inner.trim = argumentName (k + 1)) := by
  refine ⟨spell_reading true payload, spell_reading false payload, canonicalize_eq_message payload,
    mem_informalArguments_iff payload, fun h k offset inner hk => ?_, fun h => ⟨?_, ?_⟩⟩
  · exact ⟨(reading_eq_iff payload).mp h.same _ (mem_of_getElem? hk),
      (mem_informalArguments_located hk).mp (h.bound k offset inner hk)⟩
  · refine (reading_eq_iff payload).mpr fun x hx => ?_
    obtain ⟨k, hk⟩ := getElem?_of_mem hx
    exact (h k x.1 x.2 hk).1
  · exact fun k offset inner hk => (mem_informalArguments_located hk).mpr (h k offset inner hk).2

/-- They are not for the same expressions where an expression stands behind a backslash, nor where a name is
written like that of the expression behind it; they are behind two backslashes, with the name behind it. -/
theorem readings_agree_iff_backslash :
    ¬ ReadingsAgree "\\$\x7bx\x7d" ∧ ¬ ReadingsAgree "\x7barg1\x7d $\x7bx\x7d" ∧
      ReadingsAgree "\\\\$\x7b x \x7d\x7barg1\x7d" := by
  refine ⟨fun h => ?_, fun h => ?_, ?_⟩
  · obtain ⟨heven, -⟩ := (readings_agree_iff _).2.2.2.2.mp h 0 1 "x" (by decide)
    exact absurd heven (by decide)
  · obtain ⟨-, hnames⟩ := (readings_agree_iff _).2.2.2.2.mp h 0 7 "x" (by decide)
    exact absurd (hnames 0 (by decide) (by decide +kernel)) (by decide +kernel)
  · refine (readings_agree_iff _).2.2.2.2.mpr fun k offset inner hk => ?_
    have hlocated : located 0 (reading false "\\\\$\x7b x \x7d\x7barg1\x7d") = [(2, Text.ofString " x ")] := by
      decide
    rw [hlocated] at hk
    cases k with
    | zero =>
      obtain ⟨rfl, rfl⟩ := Prod.mk.inj (some.inj hk)
      exact ⟨by decide, by decide +kernel⟩
    | succ k => cases hk

end Phrasebook
