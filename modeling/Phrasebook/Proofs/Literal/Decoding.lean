import Mathlib.Data.List.Forall2
import Mathlib.Data.List.Induction
import Phrasebook.Proofs.Literal.Spelling
import Phrasebook.Proofs.Message.Bookkeeping

/-!
# Decoding from spelling to spelling

Decoding a literal goes from one spelling to the next. A decoded character is that of one spelling, or of
two that are the halves of a surrogate pair, and it remembers where the first of them begins.

## Main results

* `Spellings.exists_reads` — every literal is read as a sequence of spellings.
* `Spellings.exists_split`, `Spellings.exists_between` — a literal can be cut where decoded characters begin,
  and what lies between two cuts is decoded as in the whole.
-/

namespace Phrasebook

open List

variable {decoded done : Decoded} {i : Nat} {us : Spellings}

/-- A text cut into spellings, each with what it stands for. -/
abbrev Spellings := List (Text × Spelling)

namespace Spellings

/-- The text of spellings. -/
def text (us : Spellings) : Text := us.flatMap Prod.fst

/-- What spellings stand for. -/
def meanings (us : Spellings) : List Spelling := us.map Prod.snd

@[simp]
lemma text_cons (w : Text) (m : Spelling) (us : Spellings) : text ((w, m) :: us) = w ++ text us := by
  simp [text]

@[simp]
lemma text_append (us vs : Spellings) : text (us ++ vs) = text us ++ text vs :=
  flatMap_append

/-- **Spellings as they are read**: each stands for what it does with the others behind it. -/
inductive Reads : Spellings → Prop where
  | nil : Reads []
  | cons {w : Text} {m : Spelling} {us : Spellings} (h : Spells us.text w m) (hrest : Reads us) :
    Reads ((w, m) :: us)

/-- **Every text is cut into spellings.** -/
theorem exists_reads (t : Text) : ∃ us : Spellings, us.Reads ∧ us.text = t := by
  induction hlength : t.length using Nat.strong_induction_on generalizing t with
  | _ length ih =>
    cases t with
    | nil => exact ⟨[], .nil, rfl⟩
    | cons c t =>
      obtain ⟨w, rest, m, hsplit, hspells⟩ := exists_spells c t
      have hpos : 0 < w.length := by
        obtain ⟨d, u, rfl, -⟩ := hspells.spellingAt_eq
        exact Nat.succ_pos _
      have hlt : rest.length < length := by
        rw [← hlength, hsplit, length_append]
        omega
      obtain ⟨us, hus, rfl⟩ := ih rest.length hlt rest rfl
      exact ⟨(w, m) :: us, .cons hspells hus, by rw [text_cons, hsplit]⟩

namespace Reads

variable {us vs : Spellings}

lemma append_right (h : Reads (us ++ vs)) : Reads vs := by
  induction us with
  | nil => exact h
  | cons u us ih =>
    cases h with
    | cons _ hrest => exact ih hrest

/-- Spellings without those behind them, if `\0` does not stand before a digit. -/
lemma append_left (h : Reads (us ++ vs))
    (hzero : ∀ u ∈ us, u ≠ ([.scalar '\\', .scalar '0'], .point (.scalar '0'))) : Reads us := by
  induction us with
  | nil => exact .nil
  | cons u us ih =>
    obtain ⟨hfirst, hothers⟩ := forall_mem_cons.mp hzero
    cases h with
    | cons hspells hrest =>
      refine .cons (Spells.of_append (r := text vs) ?_ hfirst) (ih hrest hothers)
      rwa [← text_append]

/-- Between two spellings the run of backslashes is even. -/
lemma endingBackslashes_mod_two (h : Reads (us ++ vs)) (hvs : text vs ≠ []) :
    endingBackslashes us.text % 2 = 0 := by
  induction us with
  | nil => rfl
  | cons u us ih =>
    cases h with
    | cons hspells hrest =>
      have hne : text (us ++ vs) ≠ [] := by
        rw [text_append]
        exact append_ne_nil_of_right_ne_nil _ hvs
      rw [text_cons, endingBackslashes_append_mod_two (hspells.endingBackslashes_mod_two hne)]
      exact ih hrest

/-- Spellings in the middle end inside of an escape only if all of them do. -/
lemma endingBackslashes_between {ws : Spellings} (h : Reads (us ++ (vs ++ ws)))
    (hall : endingBackslashes (text (us ++ (vs ++ ws))) % 2 = 0) : endingBackslashes vs.text % 2 = 0 := by
  by_cases hvs : vs.text = []
  · rw [hvs]
    rfl
  have hbefore : endingBackslashes us.text % 2 = 0 := by
    refine h.endingBackslashes_mod_two ?_
    rw [text_append]
    exact append_ne_nil_of_left_ne_nil hvs _
  by_cases hws : ws.text = []
  · rwa [text_append, endingBackslashes_append_mod_two hbefore, text_append, hws, append_nil] at hall
  · rw [← append_assoc] at h
    have hboth := h.endingBackslashes_mod_two hws
    rwa [text_append, endingBackslashes_append_mod_two hbefore] at hboth

end Reads

end Spellings

/-! ## Decoding -/

/-- Add what a spelling at an offset stands for to what has been decoded, the last first. -/
def addSpelling (done : Decoded) (m : Spelling) (offset : Nat) : Except EscapeError Decoded :=
  match m with
  | .point c => .ok ((c, offset) :: done)
  | .nothing => .ok done
  | .code n => addCode done n offset

/-- Add the code point with a number as a character of its own. -/
def ownCode (done : Decoded) (n offset : Nat) : Except EscapeError Decoded :=
  match CodePoint.ofNat? n with
  | some c => .ok ((c, offset) :: done)
  | none => .error (if n < 0x80000000 then .outOfRange else .overflow)

lemma addCode_cons (high : CodePoint) (start : Nat) (earlier : Decoded) (n offset : Nat) :
    addCode ((high, start) :: earlier) n offset =
      if CodePoint.isLowSurrogateCode n && high.isHighSurrogate then
        .ok ((CodePoint.pair high n, start) :: earlier)
      else ownCode ((high, start) :: earlier) n offset :=
  rfl

/-- Whether a number is that of a code point depends on nothing else. -/
lemma ownCode_cases (n : Nat) :
    (∃ c, ∀ done offset, ownCode done n offset = .ok ((c, offset) :: done)) ∨
      ∃ e, ∀ done offset, ownCode done n offset = .error e := by
  cases hpoint : CodePoint.ofNat? n with
  | some c => exact .inl ⟨c, fun done offset => by simp [ownCode, hpoint]⟩
  | none => exact .inr ⟨_, fun done offset => by rw [ownCode, hpoint]⟩

/-- What one spelling can do: nothing, add a character whatever has been decoded before, or make a pair
with the last character. -/
lemma addSpelling_cases {next : Decoded} {m : Spelling} {offset : Nat}
    (h : addSpelling done m offset = .ok next) :
    (m = .nothing ∧ next = done) ∨
    (∃ c, next = (c, offset) :: done ∧ ∀ start, addSpelling [] m start = .ok [(c, start)]) ∨
    ∃ high start earlier n, done = (high, start) :: earlier ∧ m = .code n ∧
      next = (CodePoint.pair high n, start) :: earlier := by
  cases m with
  | point c => exact .inr (.inl ⟨c, (Except.ok.inj h).symm, fun _ => rfl⟩)
  | nothing => exact .inl ⟨rfl, (Except.ok.inj h).symm⟩
  | code n =>
    have hown : ownCode done n offset = .ok next →
        ∃ c, next = (c, offset) :: done ∧ ∀ start, addSpelling [] (.code n) start = .ok [(c, start)] := by
      intro hnext
      rcases ownCode_cases n with ⟨c, hc⟩ | ⟨e, he⟩
      · rw [hc] at hnext
        exact ⟨c, (Except.ok.inj hnext).symm, fun start => hc [] start⟩
      · rw [he] at hnext
        cases hnext
    cases done with
    | nil => exact .inr (.inl (hown h))
    | cons x earlier =>
      obtain ⟨high, start⟩ := x
      rw [addSpelling, addCode_cons] at h
      split_ifs at h
      · exact .inr (.inr ⟨high, start, earlier, n, rfl, rfl, (Except.ok.inj h).symm⟩)
      · exact .inr (.inl (hown h))

/-- What was decoded before stays. -/
lemma addSpelling_append {new : Decoded} (hnew : new ≠ []) (done : Decoded) (m : Spelling) (offset : Nat) :
    addSpelling (new ++ done) m offset = (addSpelling new m offset).map (· ++ done) := by
  obtain ⟨⟨high, start⟩, new, rfl⟩ := exists_cons_of_ne_nil hnew
  cases m with
  | point c => rfl
  | nothing => rfl
  | code n =>
    rw [cons_append, addSpelling, addSpelling, addCode_cons, addCode_cons]
    split_ifs
    · rfl
    · rcases ownCode_cases n with ⟨c, hc⟩ | ⟨e, he⟩
      · rw [hc, hc]
        rfl
      · rw [he, he]
        rfl

/-- Where characters begin does not matter for what they are. -/
lemma addSpelling_congr {done' : Decoded} (h : done.text = done'.text) (m : Spelling) (offset offset' : Nat) :
    (addSpelling done m offset).map Decoded.text = (addSpelling done' m offset').map Decoded.text := by
  have hcons : ∀ c : CodePoint, Decoded.text ((c, offset) :: done) = Decoded.text ((c, offset') :: done') :=
    fun c => congrArg (c :: ·) h
  cases m with
  | point c => exact congrArg Except.ok (hcons c)
  | nothing => exact congrArg Except.ok h
  | code n =>
    have hown : (ownCode done n offset).map Decoded.text = (ownCode done' n offset').map Decoded.text := by
      rcases ownCode_cases n with ⟨c, hc⟩ | ⟨e, he⟩
      · rw [hc, hc]
        exact congrArg Except.ok (hcons c)
      · rw [he, he]
    match done, done', h with
    | [], [], _ => exact hown
    | (high, start) :: earlier, (high', start') :: earlier', h =>
      obtain ⟨rfl, hearlier⟩ := List.cons.inj
        (h : high :: Decoded.text earlier = high' :: Decoded.text earlier')
      rw [addSpelling, addSpelling, addCode_cons, addCode_cons]
      split_ifs
      · exact congrArg (fun t => Except.ok (CodePoint.pair high n :: t)) hearlier
      · exact hown

namespace Spellings

/-- Decode spellings from an offset on, with what has been decoded, the last first. -/
def run (offset : Nat) (done : Decoded) : Spellings → Except EscapeError Decoded
  | [] => .ok done
  | (w, m) :: rest => (addSpelling done m offset).bind fun next => run (offset + w.length) next rest

/-- Spellings can be decoded in two parts. -/
lemma run_append (offset : Nat) (done : Decoded) (us vs : Spellings) :
    run offset done (us ++ vs) =
      (run offset done us).bind fun next => run (offset + us.text.length) next vs := by
  induction us generalizing offset done with
  | nil => rfl
  | cons u us ih =>
    obtain ⟨w, m⟩ := u
    rw [cons_append, run, run]
    cases addSpelling done m offset with
    | error e => rfl
    | ok next =>
      rw [text_cons, length_append, ← Nat.add_assoc]
      exact ih _ next

lemma decodeFrom_skip (offset : Nat) (done : Decoded) (u rest : Text) :
    decodeFrom offset u.length done (u ++ rest) = decodeFrom (offset + u.length) 0 done rest := by
  induction u generalizing offset with
  | nil => rfl
  | cons c u ih =>
    rw [length_cons, cons_append, decodeFrom, ih]
    congr 1
    omega

/-- **A literal is decoded from spelling to spelling.** -/
theorem decodeFrom_text (h : us.Reads) (offset : Nat) (done : Decoded) :
    decodeFrom offset 0 done us.text = (run offset done us).map List.reverse := by
  induction h generalizing offset done with
  | nil => rfl
  | @cons w m us hspells _ ih =>
    obtain ⟨c, u, rfl, hat⟩ := hspells.spellingAt_eq
    have hskip : ∀ next, decodeFrom (offset + 1) ((c :: u).length - 1) next (u ++ us.text) =
        (run (offset + (c :: u).length) next us).map List.reverse := by
      intro next
      rw [length_cons, Nat.add_sub_cancel, decodeFrom_skip, ih, Nat.add_assoc, Nat.add_comm 1]
    rw [text_cons, cons_append, decodeFrom, hat, run]
    cases m with
    | point d => exact hskip _
    | nothing => exact hskip _
    | code n =>
      simp only [addSpelling]
      cases addCode done n offset with
      | error e => rfl
      | ok next => exact hskip next

/-- Decoding behind other characters leaves these alone, unless the first spelling makes a pair. -/
lemma run_append_done {new : Decoded} (hnew : new ≠ []) (done : Decoded) (offset : Nat) (us : Spellings) :
    run offset (new ++ done) us = (run offset new us).map (· ++ done) := by
  induction us generalizing new offset with
  | nil => rfl
  | cons u us ih =>
    obtain ⟨w, m⟩ := u
    rw [run, run, addSpelling_append hnew]
    cases hnext : addSpelling new m offset with
    | error e => rfl
    | ok next =>
      refine ih ?_ _
      rcases addSpelling_cases hnext with ⟨-, rfl⟩ | ⟨c, rfl, -⟩ | ⟨high, start, earlier, n, -, -, rfl⟩
      · exact hnew
      · exact cons_ne_nil _ _
      · exact cons_ne_nil _ _

/-- A spelling that makes no pair is decoded on its own. -/
lemma run_append_done_of_first {m : Spelling} {offset : Nat} {first : CodePoint}
    (hadd : addSpelling done m offset = .ok ((first, offset) :: done))
    (hfirst : addSpelling [] m offset = .ok [(first, offset)]) (w : Text) (us : Spellings) :
    run offset done ((w, m) :: us) = (run offset [] ((w, m) :: us)).map (· ++ done) := by
  rw [run, run, hadd, hfirst]
  exact run_append_done (cons_ne_nil _ []) done _ us

/-- What is decoded depends on what the spellings stand for. -/
lemma run_congr {us vs : Spellings} (h : us.meanings = vs.meanings) {done done' : Decoded}
    (hdone : done.text = done'.text) (offset offset' : Nat) :
    (run offset done us).map Decoded.text = (run offset' done' vs).map Decoded.text := by
  induction us generalizing vs offset offset' done done' with
  | nil =>
    obtain rfl : vs = [] := map_eq_nil_iff.mp h.symm
    exact congrArg Except.ok hdone
  | cons u us ih =>
    obtain ⟨w, m⟩ := u
    cases vs with
    | nil => cases h
    | cons v vs =>
      obtain ⟨w', m'⟩ := v
      obtain ⟨rfl, hrest⟩ := List.cons.inj (h : m :: meanings us = m' :: meanings vs)
      have hadd := addSpelling_congr hdone m offset offset'
      rw [run, run]
      cases hnext : addSpelling done m offset with
      | error e =>
        cases hnext' : addSpelling done' m offset' with
        | error e' =>
          rw [hnext, hnext'] at hadd
          exact hadd
        | ok next' =>
          rw [hnext, hnext'] at hadd
          cases hadd
      | ok next =>
        cases hnext' : addSpelling done' m offset' with
        | error e' =>
          rw [hnext, hnext'] at hadd
          cases hadd
        | ok next' =>
          rw [hnext, hnext'] at hadd
          exact ih hrest (Except.ok.inj hadd) _ _

/-- The text that spellings stand for together. -/
def value (us : Spellings) : Except EscapeError Text :=
  ((run 0 [] us).map Decoded.text).map List.reverse

lemma value_eq (us : Spellings) (offset : Nat) :
    us.value = ((run offset [] us).map Decoded.text).map List.reverse := by
  rw [value, @run_congr us us rfl [] [] rfl 0 offset]

/-- The value depends on the meanings alone. -/
theorem value_congr {vs : Spellings} (h : us.meanings = vs.meanings) : us.value = vs.value := by
  rw [value, value, @run_congr us vs h [] [] rfl 0 0]

/-- **The decoded text of a literal** is what its spellings stand for. -/
theorem map_text_decodeLiteral (h : us.Reads) : (decodeLiteral us.text).map Decoded.text = us.value := by
  rw [decodeLiteral, decodeFrom_text h, value]
  cases run 0 [] us with
  | error e => rfl
  | ok done => exact congrArg Except.ok map_reverse

/-- A spelling that stands for one character, whatever has been decoded before. -/
def Owns (m : Spelling) (c : CodePoint) : Prop :=
  ∀ done offset, addSpelling done m offset = .ok ((c, offset) :: done)

lemma owns_point (c : CodePoint) : Owns (.point c) c := fun _ _ => rfl

/-- The number of a character that is no second half of a pair. -/
lemma owns_code {n : Nat} {c : CodePoint} (hc : CodePoint.ofNat? n = some c)
    (hlow : CodePoint.isLowSurrogateCode n = false) : Owns (.code n) c := by
  intro done offset
  have hown : ownCode done n offset = .ok ((c, offset) :: done) := by rw [ownCode, hc]
  cases done with
  | nil => exact hown
  | cons x earlier => rw [addSpelling, addCode_cons, hlow, Bool.false_and, if_neg Bool.false_ne_true, hown]

/-- **Spellings of one character each** stand for these characters. -/
theorem value_of_owns {t : Text} (h : List.Forall₂ Owns us.meanings t) : us.value = .ok t := by
  have hrun : ∀ (us : Spellings) (t : Text), List.Forall₂ Owns us.meanings t → ∀ offset done,
      (run offset done us).map Decoded.text = .ok (t.reverse ++ done.text) := by
    intro us
    induction us with
    | nil =>
      intro t h offset done
      obtain rfl := forall₂_nil_left_iff.mp h
      rfl
    | cons u us ih =>
      obtain ⟨w, m⟩ := u
      intro t h offset done
      obtain ⟨c, t, hc, hrest, rfl⟩ := forall₂_cons_left_iff.mp h
      rw [run, hc]
      refine (ih t hrest _ _).trans ?_
      rw [reverse_cons, append_assoc]
      rfl
  rw [value, hrun us t h]
  exact congrArg Except.ok (by simp [Decoded.text])

/-- **Where a decoded character begins, its spelling does**, and that adds a character whatever has been
decoded before.

**Proof sketch.** Induction on the spellings from the end. The last one adds nothing, adds the last
character, or makes a pair of it; in the last case the character begins where it did. -/
theorem exists_split {later : Decoded} {c : CodePoint} {start : Nat}
    (h : run 0 [] us = .ok (later ++ (c, start) :: done)) :
    ∃ before w m after first, us = before ++ (w, m) :: after ∧ start = before.text.length ∧
      run 0 [] before = .ok done ∧ addSpelling done m start = .ok ((first, start) :: done) ∧
      ∀ offset, addSpelling [] m offset = .ok [(first, offset)] := by
  induction us using List.reverseRecOn generalizing later c with
  | nil => simp [run] at h
  | append_singleton us u ih =>
    obtain ⟨w, m⟩ := u
    -- a character that was there before
    have hearlier : ∀ {later : Decoded} {c : CodePoint},
        run 0 [] us = .ok (later ++ (c, start) :: done) →
        ∃ before w' m' after first, us ++ [(w, m)] = before ++ (w', m') :: after ∧
          start = before.text.length ∧ run 0 [] before = .ok done ∧
          addSpelling done m' start = .ok ((first, start) :: done) ∧
          ∀ offset, addSpelling [] m' offset = .ok [(first, offset)] := by
      intro later c hrun
      obtain ⟨before, w', m', after, first, rfl, hrest⟩ := ih hrun
      exact ⟨before, w', m', after ++ [(w, m)], first, by simp, hrest⟩
    rw [run_append] at h
    obtain ⟨prev, hprev, h⟩ := exists_ok_of_bind h
    obtain ⟨next, hadd, h⟩ := exists_ok_of_bind h
    obtain rfl := Except.ok.inj h
    rw [Nat.zero_add] at hadd
    rw [hprev] at hearlier
    rcases addSpelling_cases hadd with ⟨-, hnext⟩ | ⟨first, hnext, hfirst⟩ |
      ⟨high, begun, earlier, n, rfl, -, hnext⟩
    · exact hearlier (congrArg Except.ok hnext.symm)
    · cases later with
      | nil =>
        obtain ⟨heq, rfl⟩ := List.cons.inj hnext
        obtain ⟨rfl, rfl⟩ := Prod.mk.inj heq
        exact ⟨us, w, m, [], c, rfl, rfl, hprev, hadd, hfirst⟩
      | cons x later =>
        obtain ⟨-, hprev'⟩ := List.cons.inj hnext
        exact hearlier (congrArg Except.ok hprev'.symm)
    · cases later with
      | nil =>
        obtain ⟨heq, rfl⟩ := List.cons.inj hnext
        obtain ⟨-, rfl⟩ := Prod.mk.inj heq
        exact @hearlier [] high rfl
      | cons x later =>
        obtain ⟨-, rfl⟩ := List.cons.inj hnext
        exact @hearlier ((high, begun) :: later) c rfl

/-- The decoded characters before one of them, that one, and those behind it, the last first. -/
lemma reverse_eq_append (h : i < decoded.length) :
    decoded.reverse =
      (decoded.drop (i + 1)).reverse ++ (decoded[i].1, decoded[i].2) :: (decoded.take i).reverse := by
  have hsplit : decoded = decoded.take i ++ decoded[i] :: decoded.drop (i + 1) := by
    rw [← drop_eq_getElem_cons h, take_append_drop]
  refine (congrArg List.reverse hsplit).trans ?_
  rw [reverse_append, reverse_cons, append_assoc, singleton_append]

lemma getD_starts (h : i < decoded.length) (length : Nat) :
    (decoded.starts length).getD i length = decoded[i].2 := by
  simp [Decoded.starts, getElem?_append_left, h]

/-- A literal can be cut where decoded characters begin, and what stands before the cut is decoded as in
the whole. -/
lemma exists_cut (h : run 0 [] us = .ok decoded.reverse) {j : Nat} (hj : j ≤ decoded.length) :
    ∃ before after, us = before ++ after ∧ run 0 [] before = .ok (decoded.take j).reverse ∧
      (decoded.starts us.text.length).getD j us.text.length = before.text.length := by
  rcases eq_or_lt_of_le hj with rfl | hlt
  · refine ⟨us, [], (append_nil us).symm, by rw [take_length, h], ?_⟩
    simp [Decoded.starts]
  · rw [reverse_eq_append hlt] at h
    obtain ⟨before, w, m, after, -, rfl, hstart, hrun, -⟩ := exists_split h
    exact ⟨before, (w, m) :: after, rfl, hrun, by rw [getD_starts hlt, hstart]⟩

/-- **What is spelled between two decoded characters** is decoded to the characters between them.

**Proof sketch.** Cut before the second one, and cut what stands before that again where the first one
begins. The first spelling behind this cut adds a character whatever has been decoded before, so decoding
from there on leaves alone what has been decoded. -/
theorem exists_between (h : run 0 [] us = .ok decoded.reverse) {j : Nat} (hij : i ≤ j)
    (hj : j ≤ decoded.length) :
    ∃ before between after, us = before ++ (between ++ after) ∧
      (decoded.starts us.text.length).getD i us.text.length = before.text.length ∧
      (decoded.starts us.text.length).getD j us.text.length = (text (before ++ between)).length ∧
      value between = .ok (decoded.text.slice i j) := by
  obtain ⟨front, after, rfl, hfront, hstop⟩ := exists_cut h hj
  rcases eq_or_lt_of_le hij with rfl | hlt
  · refine ⟨front, [], after, by simp, hstop, by rw [hstop, append_nil], ?_⟩
    rw [Text.slice_eq_take_drop, Nat.sub_self]
    rfl
  · have hi : i < (decoded.take j).length := by
      rw [length_take]
      omega
    have hwhole := hfront
    rw [reverse_eq_append hi] at hfront
    obtain ⟨before, w, m, rest, first, rfl, hstart, hbefore, hadd, hfirst⟩ := exists_split hfront
    have hget : (decoded.take j)[i] = decoded[i] := getElem_take
    refine ⟨before, (w, m) :: rest, after, by simp, ?_, hstop, ?_⟩
    · rw [getD_starts (by omega), ← hget, hstart]
    · rw [run_append, hbefore, Nat.zero_add, ← hstart] at hwhole
      obtain ⟨new, hnew, hwhole⟩ := exists_ok_of_map
        ((run_append_done_of_first hadd (hfirst _) w rest).symm.trans hwhole)
      have htext : new.reverse = (decoded.take j).drop i := by
        have hreverse := congrArg List.reverse hwhole
        rw [reverse_append, reverse_reverse, reverse_reverse] at hreverse
        exact append_cancel_left (hreverse.trans (take_append_drop i _).symm)
      rw [value_eq _ (decoded.take j)[i].2, hnew]
      refine congrArg Except.ok ?_
      rw [Decoded.text, ← map_reverse, htext, Text.slice, Decoded.text, ← map_take, map_drop]

end Spellings

end Phrasebook
