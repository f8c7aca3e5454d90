import Mathlib.Algebra.Ring.Nat
import Phrasebook.Proofs.Literal.Decoding
import Phrasebook.Proofs.Text.Order

/-!
# The source map of a literal

Every decoded character is kept with the offset where its spelling begins. This map is described here from
left to right, spelling by spelling.

## Main results

* `Spellings.IsSourceMap.pairwise_starts` — the offsets increase.
* `decodeLiteral_source_map` — decoding gives the map unless it meets an escape with a number that no
  character has.
-/

namespace Phrasebook

open List Option

/-! ## Numbers of characters -/

namespace CodePoint

/-- Which numbers no code point has. -/
lemma ofNat?_eq_none_iff {n : Nat} : ofNat? n = none ↔ 0x10FFFF < n := by
  rw [ofNat?]
  split_ifs with hvalid hhalf <;> simp_all [Nat.isValidChar] <;> omega

/-- A pair is no half of another pair. -/
lemma isHighSurrogate_pair {high : CodePoint} {low : Nat} (hhigh : high.isHighSurrogate)
    (hlow : isLowSurrogateCode low) : (pair high low).isHighSurrogate = false := by
  simp only [isHighSurrogate, isLowSurrogateCode, Bool.and_eq_true, decide_eq_true_eq] at hhigh hlow
  have hvalid : (0x10000 + (high.toNat - 0xD800) * 0x400 + (low - 0xDC00)).isValidChar := .inr (by omega)
  rw [isHighSurrogate, pair, toNat_scalar_ofNat hvalid]
  simp only [Bool.and_eq_false_imp, decide_eq_true_eq, decide_eq_false_iff_not]
  omega

end CodePoint

/-- The value of hexadecimal digits is bounded by their number. -/
lemma hexValue?_lt {w : Text} {n : Nat} (h : hexValue? w = some n) : n < 16 ^ w.length := by
  have hdigit : ∀ {c : CodePoint} {value : Nat}, c.hexValue? = some value → value < 16 := by
    intro c value hvalue
    simp only [CodePoint.hexValue?] at hvalue
    split_ifs at hvalue <;> simp_all <;> omega
  have hfold : ∀ {w : Text} {start n : Nat},
      w.foldlM (fun n c => c.hexValue?.map (n * 16 + ·)) start = some n → n < (start + 1) * 16 ^ w.length := by
    intro w
    induction w with
    | nil => simp
    | cons d w ih =>
      intro start n h
      rw [foldlM_cons] at h
      obtain ⟨next, hnext, h⟩ := bind_eq_some_iff.mp h
      obtain ⟨value, hvalue, rfl⟩ := map_eq_some_iff.mp hnext
      calc n < (start * 16 + value + 1) * 16 ^ w.length := ih h
        _ ≤ ((start + 1) * 16) * 16 ^ w.length := Nat.mul_le_mul_right _ (by have := hdigit hvalue; omega)
        _ = (start + 1) * 16 ^ (w.length + 1) := by rw [Nat.pow_succ, Nat.mul_assoc, Nat.mul_comm 16]
  rw [hexValue?] at h
  split_ifs at h
  simpa using hfold h

/-- What a spelling by itself stands for. -/
def Spelling.StandsFor : Spelling → CodePoint → Prop
  | .point c, d => c = d
  | .code n, d => d.toNat = n
  | .nothing, _ => False

namespace Spellings

/-- The number of the second half of a pair, if that is what is spelled next. -/
def low? : Spellings → Option Nat
  | (_, .code n) :: _ => if CodePoint.isLowSurrogateCode n then some n else none
  | (_, .nothing) :: us => low? us
  | _ => none

/-- **The source map of spellings** from an offset on: each character where its spelling begins. -/
inductive IsSourceMap : Nat → Spellings → Decoded → Prop where
  | nil {offset : Nat} : IsSourceMap offset [] []
  | nothing {offset : Nat} {w : Text} {us : Spellings} {decoded : Decoded}
      (h : IsSourceMap (offset + w.length) us decoded) : IsSourceMap offset ((w, .nothing) :: us) decoded
  /-- A character that makes no pair with the next one. -/
  | single {offset : Nat} {w : Text} {m : Spelling} {c : CodePoint} {us : Spellings} {decoded : Decoded}
      (hm : m.StandsFor c) (hlone : c.isHighSurrogate → low? us = none)
      (h : IsSourceMap (offset + w.length) us decoded) :
    IsSourceMap offset ((w, m) :: us) ((c, offset) :: decoded)
  /-- The first half of a pair takes the place of the second, and begins where it is spelled itself. -/
  | pair {offset low : Nat} {w : Text} {m : Spelling} {high : CodePoint} {us : Spellings}
      {second : CodePoint × Nat} {decoded : Decoded} (hm : m.StandsFor high) (hhigh : high.isHighSurrogate)
      (hlow : low? us = some low) (h : IsSourceMap (offset + w.length) us (second :: decoded)) :
    IsSourceMap offset ((w, m) :: us) ((CodePoint.pair high low, offset) :: decoded)

variable {offset start low : Nat} {w : Text} {m : Spelling} {us : Spellings} {c high : CodePoint}
  {done decoded : Decoded}

/-- **The offsets of a source map are in order**, up to the end of the spellings. -/
theorem IsSourceMap.pairwise_starts (h : IsSourceMap offset us decoded) (hne : ∀ u ∈ us, u.1 ≠ []) :
    (decoded.starts (offset + us.text.length)).Pairwise (· < ·) ∧
      ∀ start ∈ decoded.starts (offset + us.text.length), offset ≤ start := by
  have hcons : ∀ {offset next stop : Nat} {c : CodePoint} {d : Decoded}, offset < next →
      (d.starts stop).Pairwise (· < ·) → (∀ start ∈ d.starts stop, next ≤ start) →
      (Decoded.starts ((c, offset) :: d) stop).Pairwise (· < ·) ∧
        ∀ start ∈ Decoded.starts ((c, offset) :: d) stop, offset ≤ start := by
    intro offset next stop c d hnext hsorted hle
    have hlt := fun start hstart => lt_of_lt_of_le hnext (hle start hstart)
    exact ⟨pairwise_cons.mpr ⟨hlt, hsorted⟩,
      forall_mem_cons.mpr ⟨le_refl _, fun start hstart => le_of_lt (hlt start hstart)⟩⟩
  induction h with
  | nil => simp [Decoded.starts, text]
  | nothing _ ih =>
    obtain ⟨hsorted, hle⟩ := ih (forall_mem_cons.mp hne).2
    rw [text_cons, length_append, ← add_assoc]
    exact ⟨hsorted, fun start hstart => Nat.le_of_add_right_le (hle start hstart)⟩
  | single _ _ _ ih =>
    obtain ⟨hw, hothers⟩ := forall_mem_cons.mp hne
    obtain ⟨hsorted, hle⟩ := ih hothers
    rw [text_cons, length_append, ← add_assoc]
    exact hcons (Nat.lt_add_of_pos_right (length_pos_iff.mpr hw)) hsorted hle
  | pair _ _ _ _ ih =>
    obtain ⟨hw, hothers⟩ := forall_mem_cons.mp hne
    obtain ⟨hsorted, hle⟩ := ih hothers
    rw [text_cons, length_append, ← add_assoc]
    exact hcons (Nat.lt_add_of_pos_right (length_pos_iff.mpr hw)) (pairwise_cons.mp hsorted).2
      (forall_mem_cons.mp hle).2

/-! ## Decoding gives the source map -/

/-- Behind a character that makes no pair decoding goes on as if nothing had been decoded. -/
lemma run_of_lone (h : c.isHighSurrogate → low? us = none) (offset start : Nat) (done : Decoded) :
    run offset ((c, start) :: done) us = (run offset [] us).map (· ++ (c, start) :: done) := by
  induction us generalizing offset with
  | nil => rfl
  | cons u us ih =>
    obtain ⟨w, m⟩ := u
    cases m with
    | point d => exact run_append_done_of_first rfl rfl w us
    | nothing => exact ih h _
    | code n =>
      have hlone : ¬ (CodePoint.isLowSurrogateCode n && c.isHighSurrogate) := by
        rw [Bool.and_eq_true]
        rintro ⟨hn, hc⟩
        simp [low?, hn] at h
        exact absurd hc (by simp [h])
      have hadd : addSpelling ((c, start) :: done) (.code n) offset = ownCode ((c, start) :: done) n offset := by
        rw [addSpelling, addCode_cons, if_neg hlone]
      rcases ownCode_cases n with ⟨d, hd⟩ | ⟨e, he⟩
      · exact run_append_done_of_first (hadd.trans (hd _ _)) (hd [] offset) w us
      · rw [run, run, hadd, he, show addSpelling [] (.code n) offset = .error e from he [] offset]
        rfl

/-- Two halves that meet are joined where the first begins; the second alone would be the first character
that is decoded. -/
lemma run_of_low (hhigh : high.isHighSurrogate) (hlow : low? us = some low)
    (h : run offset ((high, start) :: done) us = .ok decoded) :
    ∃ later second, run offset [] us = .ok (later ++ [second]) ∧
      later ++ (CodePoint.pair high low, start) :: done = decoded := by
  induction us generalizing offset with
  | nil => cases hlow
  | cons u us ih =>
    obtain ⟨w, m⟩ := u
    cases m with
    | point d => cases hlow
    | nothing => exact ih hlow h
    | code n =>
      rw [low?] at hlow
      split_ifs at hlow with hn
      obtain rfl := some.inj hlow
      rw [run, addSpelling, addCode_cons, hn, hhigh] at h
      obtain ⟨later, hlater, rfl⟩ := exists_ok_of_map <|
        (run_of_lone (by simp [CodePoint.isHighSurrogate_pair hhigh hn]) _ _ _).symm.trans h
      obtain ⟨second, hsecond⟩ : ∃ second, CodePoint.ofNat? n = some second := by
        simp only [CodePoint.isLowSurrogateCode, Bool.and_eq_true, decide_eq_true_eq] at hn
        refine ne_none_iff_exists'.mp fun hnone => ?_
        have := CodePoint.ofNat?_eq_none_iff.mp hnone
        omega
      have hlone : ¬ second.isHighSurrogate := by
        simp only [CodePoint.isLowSurrogateCode, CodePoint.isHighSurrogate, Bool.and_eq_true,
          decide_eq_true_eq, CodePoint.toNat_of_ofNat? hsecond] at hn ⊢
        omega
      refine ⟨later, (second, offset), ?_, rfl⟩
      rw [run, addSpelling, addCode, hsecond]
      exact (run_of_lone (fun h => absurd h hlone) _ _ _).trans (by rw [hlater]; rfl)

lemma standsFor_of_addSpelling (h : ∀ start, addSpelling [] m start = .ok [(c, start)]) : m.StandsFor c := by
  have hzero := h 0
  cases m with
  | point d => simpa [addSpelling, Spelling.StandsFor] using hzero
  | nothing => simp [addSpelling] at hzero
  | code n =>
    cases hn : CodePoint.ofNat? n with
    | none => simp [addSpelling, addCode, hn] at hzero
    | some d =>
      obtain rfl : d = c := by simpa [addSpelling, addCode, hn] using hzero
      exact CodePoint.toNat_of_ofNat? hn

/-- **What decoding gives is a source map.** -/
theorem isSourceMap_of_run (h : run offset [] us = .ok done) : IsSourceMap offset us done.reverse := by
  induction us generalizing offset done with
  | nil =>
    obtain rfl := Except.ok.inj h
    exact .nil
  | cons u us ih =>
    obtain ⟨w, m⟩ := u
    obtain ⟨next, hnext, h⟩ := exists_ok_of_bind h
    rcases addSpelling_cases hnext with ⟨rfl, rfl⟩ | ⟨c, rfl, hc⟩ | ⟨high, start, earlier, n, hdone, -⟩
    · exact .nothing (ih h)
    · by_cases hpair : c.isHighSurrogate ∧ (low? us).isSome
      · obtain ⟨hhigh, hsome⟩ := hpair
        obtain ⟨low, hlow⟩ := isSome_iff_exists.mp hsome
        obtain ⟨later, second, hlater, rfl⟩ := run_of_low hhigh hlow h
        have hrest := ih hlater
        rw [reverse_append] at hrest ⊢
        exact .pair (standsFor_of_addSpelling hc) hhigh hlow hrest
      · have hlone : c.isHighSurrogate → low? us = none := by simpa using hpair
        rw [run_of_lone hlone] at h
        obtain ⟨later, hlater, rfl⟩ := exists_ok_of_map h
        rw [reverse_append]
        exact .single (standsFor_of_addSpelling hc) hlone (ih hlater)
    · cases hdone

/-! ## Failure -/

/-- When a spelling cannot be decoded. -/
lemma addSpelling_error_iff :
    (∃ e, addSpelling done m offset = .error e) ↔ ∃ n, m = .code n ∧ 0x10FFFF < n := by
  cases m with
  | point c => simp [addSpelling]
  | nothing => simp [addSpelling]
  | code n =>
    have hown : (∃ e, ownCode done n offset = .error e) ↔ ∃ k, Spelling.code n = .code k ∧ 0x10FFFF < k := by
      simp only [Spelling.code.injEq, exists_eq_left', ← CodePoint.ofNat?_eq_none_iff, ownCode]
      cases CodePoint.ofNat? n <;> simp
    cases done with
    | nil => exact hown
    | cons x earlier =>
      rw [addSpelling, addCode_cons]
      split_ifs with hjoin
      · simp only [CodePoint.isLowSurrogateCode, Bool.and_eq_true, decide_eq_true_eq] at hjoin
        simp
        omega
      · exact hown

/-- **Decoding fails at a number that no character has**, and at nothing else. -/
theorem run_error_iff :
    (∃ e, run offset done us = .error e) ↔ ∃ w n, (w, Spelling.code n) ∈ us ∧ 0x10FFFF < n := by
  induction us generalizing offset done with
  | nil => simp [run]
  | cons u us ih =>
    obtain ⟨w, m⟩ := u
    have hfirst := @addSpelling_error_iff offset m done
    rw [run]
    cases hnext : addSpelling done m offset with
    | error e =>
      obtain ⟨n, rfl, hn⟩ := hfirst.mp ⟨e, hnext⟩
      exact ⟨fun _ => ⟨w, n, mem_cons_self, hn⟩, fun _ => ⟨e, rfl⟩⟩
    | ok next =>
      have hlater : (∃ e, run (offset + w.length) next us = .error e) ↔ _ := ih
      have hvalid : ∀ n, 0x10FFFF < n → m ≠ .code n := fun n hn hm => by
        simpa [hnext] using hfirst.mpr ⟨n, hm, hn⟩
      refine hlater.trans (exists_congr fun v => exists_congr fun n => and_congr_left fun hn => ?_)
      rw [mem_cons, or_iff_right fun heq => hvalid n hn (congrArg Prod.snd heq).symm]

lemma Reads.exists_spells (h : us.Reads) (hmem : (w, m) ∈ us) : ∃ rest, Spells rest w m := by
  obtain ⟨before, after, rfl⟩ := append_of_mem hmem
  cases h.append_right with
  | cons hspells _ => exact ⟨_, hspells⟩

end Spellings

/-- **Decoding gives a sound source map.** A literal is cut into spellings. Decoding fails if and only if one
of them is an escape in braces with a number above all code points. Otherwise it gives the source map of the
spellings, which has one offset for each character, and the length behind them, in strict order. -/
theorem decodeLiteral_source_map (raw : Text) :
    ∃ us : Spellings, us.Reads ∧ us.text = raw ∧
      ((∃ e, decodeLiteral raw = .error e) ↔ ∃ digits n, hexValue? digits = some n ∧ 0x10FFFF < n ∧
        (.scalar '\\' :: .scalar 'u' :: .scalar '\x7b' :: (digits ++ [.scalar '\x7d']), Spelling.code n) ∈ us) ∧
      ∀ decoded, decodeLiteral raw = .ok decoded →
        us.IsSourceMap 0 decoded ∧
        (decoded.starts raw.length).length = decoded.text.length + 1 ∧
        (decoded.starts raw.length).getLast? = some raw.length ∧
        (decoded.starts raw.length).Pairwise (· < ·) := by
  obtain ⟨us, hreads, rfl⟩ := Spellings.exists_reads raw
  have hdecode : decodeLiteral us.text = (Spellings.run 0 [] us).map List.reverse :=
    Spellings.decodeFrom_text hreads 0 []
  refine ⟨us, hreads, rfl, ?_, fun decoded h => ?_⟩
  · have hfails : (∃ e, decodeLiteral us.text = .error e) ↔ ∃ e, Spellings.run 0 [] us = .error e := by
      rw [hdecode]
      cases Spellings.run 0 [] us <;> simp [Except.map]
    rw [hfails, Spellings.run_error_iff]
    constructor
    · rintro ⟨w, n, hmem, hn⟩
      obtain ⟨rest, hspells⟩ := hreads.exists_spells hmem
      cases hspells with
      | code hw =>
        cases hw with
        | four hlength hvalue =>
          have hlt := hexValue?_lt hvalue
          rw [hlength] at hlt
          omega
        | braced hvalue => exact ⟨_, n, hvalue, hn, hmem⟩
    · rintro ⟨digits, n, -, hn, hmem⟩
      exact ⟨_, n, hmem, hn⟩
  · obtain ⟨done, hrun, rfl⟩ := exists_ok_of_map (hdecode.symm.trans h)
    have hmap := Spellings.isSourceMap_of_run hrun
    have hne : ∀ u ∈ us, u.1 ≠ [] := by
      rintro ⟨w, m⟩ hmem
      obtain ⟨rest, hspells⟩ := hreads.exists_spells hmem
      obtain ⟨c, u, rfl, -⟩ := hspells.spellingAt_eq
      exact cons_ne_nil c u
    have hsorted := (hmap.pairwise_starts hne).1
    rw [zero_add] at hsorted
    exact ⟨hmap, by simp [Decoded.starts, Decoded.text], by simp [Decoded.starts], hsorted⟩

/-- A pair with a continued line between its halves. -/
theorem decodeLiteral_source_map_pair :
    decodeLiteral "\\uD83D\\\n\\uDE00!" = .ok [('😀', 0), ('!', 14)] ∧
      ∃ us : Spellings, us.Reads ∧ us.text = ("\\uD83D\\\n\\uDE00!" : Text) ∧
        us.IsSourceMap 0 [('😀', 0), ('!', 14)] ∧ [0, 14, 15].Pairwise (· < ·) := by
  have hdecode : decodeLiteral "\\uD83D\\\n\\uDE00!" = .ok [('😀', 0), ('!', 14)] := by
    decide +kernel
  obtain ⟨us, hreads, htext, -, hmap⟩ := decodeLiteral_source_map "\\uD83D\\\n\\uDE00!"
  obtain ⟨hsource, -, -, hsorted⟩ := hmap _ hdecode
  exact ⟨hdecode, us, hreads, htext, hsource, hsorted⟩

end Phrasebook
