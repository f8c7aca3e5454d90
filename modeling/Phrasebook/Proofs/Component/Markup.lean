import Mathlib.Data.List.Basic
import Mathlib.Data.List.TakeWhile
import Phrasebook.Component.Markup
import Phrasebook.Proofs.Text.Find

/-!
# Where the parts of markup stand

Most scanners of markup go through the text character by character, skip what belongs to the last thing
that they have found, and ask at every other place whether something begins there.

## Main results

* `follow_scan` — what is found in this way follows each other.
* `follow_markupParts`, `follow_attributesOf`, `follow_mustaches`, `follow_stringLiterals` — so do parts,
  attributes, expressions and string literals.
-/

namespace Phrasebook

open List Option

variable {length limit' : Nat} {t : Text}

/-- Things that follow each other between two offsets; they may be empty. -/
def Follow {α : Type} (span : α → Nat × Nat) (limit : Nat) : Nat → List α → Prop
  | cursor, [] => cursor ≤ limit
  | cursor, x :: rest =>
    cursor ≤ (span x).1 ∧ (span x).1 ≤ (span x).2 ∧ Follow span limit (span x).2 rest

namespace Follow

variable {α : Type} {span : α → Nat × Nat} {limit : Nat}

lemma of_le {cursor cursor' : Nat} (hle : cursor' ≤ cursor) : ∀ {xs : List α},
    Follow span limit cursor xs → Follow span limit cursor' xs
  | [], h => le_trans hle h
  | _ :: _, h => ⟨le_trans hle h.1, h.2⟩

lemma of_limit_le (hle : limit ≤ limit') : ∀ {xs : List α} {cursor : Nat},
    Follow span limit cursor xs → Follow span limit' cursor xs
  | [], _, h => le_trans h hle
  | _ :: _, _, h => ⟨h.1, h.2.1, of_limit_le hle h.2.2⟩

/-- There is nothing between offsets that are not in order. -/
lemma cursor_le : ∀ {xs : List α} {cursor : Nat}, Follow span limit cursor xs → cursor ≤ limit
  | [], _, h => h
  | _ :: _, _, h => le_trans h.1 (le_trans h.2.1 h.2.2.cursor_le)

lemma le_of_mem {x : α} : ∀ {xs : List α} {cursor : Nat}, Follow span limit cursor xs → x ∈ xs →
    (span x).1 ≤ (span x).2
  | _ :: _, _, h, hx => by
    rcases mem_cons.mp hx with rfl | hx
    · exact h.2.1
    · exact h.2.2.le_of_mem hx

/-- Things that follow each other begin before the later ones do. -/
lemma cursor_le_start {x : α} {later : List α} : ∀ {earlier : List α} {cursor : Nat},
    Follow span limit cursor (earlier ++ x :: later) → cursor ≤ (span x).1
  | [], _, h => h.1
  | _ :: _, _, h => le_trans h.1 (le_trans h.2.1 (cursor_le_start h.2.2))

/-- Spans that are moved together still follow each other. -/
lemma shift (n : Nat) : ∀ {xs : List α} {cursor : Nat}, Follow span limit cursor xs →
    Follow (fun x => (n + (span x).1, n + (span x).2)) (n + limit) (n + cursor) xs
  | [], _, h => Nat.add_le_add_left h n
  | _ :: _, _, h =>
    ⟨Nat.add_le_add_left h.1 n, Nat.add_le_add_left h.2.1 n, shift n h.2.2⟩

lemma append {others : List α} (hothers : Follow span limit' limit others) :
    ∀ {xs : List α} {cursor : Nat},
      Follow span limit cursor xs → Follow span limit' cursor (xs ++ others)
  | [], _, h => hothers.of_le h
  | _ :: _, _, h => ⟨h.1, h.2.1, append hothers h.2.2⟩

end Follow

/-! ## Scanners -/

/-- **What a scanner finds follows each other.** At every place that is not skipped the scanner goes
on, or it finds something of some length there and skips the rest of it.

**Proof sketch.** Induction on the text. What is found reaches as far as the scanner skips. -/
theorem follow_scan {α : Type} (span : α → Nat × Nat) (scan : Nat → Nat → Text → List α)
    (valid : α → Prop) (hnil : ∀ offset skip, scan offset skip [] = [])
    (hskip : ∀ offset skip c rest,
      scan offset (skip + 1) (c :: rest) = scan (offset + 1) skip rest)
    (hstep : ∀ offset c rest, scan offset 0 (c :: rest) = scan (offset + 1) 0 rest ∨
      ∃ x length, span x = (offset, offset + length) ∧ valid x ∧ 0 < length ∧
        length ≤ rest.length + 1 ∧
        scan offset 0 (c :: rest) = x :: scan (offset + 1) (length - 1) rest)
    (t : Text) (offset skip : Nat) :
    Follow span (offset + t.length) (offset + min skip t.length) (scan offset skip t) ∧
      ∀ x ∈ scan offset skip t, valid x := by
  induction t generalizing offset skip with
  | nil => simp [hnil, Follow]
  | cons c rest ih =>
    cases skip with
    | succ skip =>
      rw [hskip, length_cons]
      obtain ⟨hfollow, hvalid⟩ := ih (offset + 1) skip
      rw [show offset + 1 + rest.length = offset + (rest.length + 1) by omega] at hfollow
      exact ⟨hfollow.of_le (by omega), hvalid⟩
    | zero =>
      rcases hstep offset c rest with hnone | ⟨x, length, hspan, hx, hpos, hle, hfound⟩
      · rw [hnone, length_cons]
        obtain ⟨hfollow, hvalid⟩ := ih (offset + 1) 0
        rw [show offset + 1 + rest.length = offset + (rest.length + 1) by omega] at hfollow
        exact ⟨hfollow.of_le (by omega), hvalid⟩
      · rw [hfound, length_cons]
        obtain ⟨hfollow, hvalid⟩ := ih (offset + 1) (length - 1)
        rw [show offset + 1 + rest.length = offset + (rest.length + 1) by omega] at hfollow
        refine ⟨?_, forall_mem_cons.mpr ⟨hx, hvalid⟩⟩
        simp only [Follow, hspan]
        exact ⟨by omega, by omega, hfollow.of_le (by omega)⟩

/-! ## String literals -/

lemma stringRest?_le {quote : CodePoint} (h : stringRest? quote t = some length) : length ≤ t.length := by
  fun_induction stringRest? quote t generalizing length with
  | case1 => simp at h
  | case2 => simp_all
  | case3 => simp at h
  | case4 => simp at h
  | case5 => simp at h
  | case6 c hquote hline hslash d rest hd ih | case7 c rest hquote hline hslash ih =>
    obtain ⟨n, hn, rfl⟩ := map_eq_some_iff.mp h
    have := ih hn
    simp only [length_cons]
    omega

/-- A string literal that a text begins with has its two quotes, and ends in the text. -/
lemma stringLength?_spec {c : CodePoint} {rest : Text}
    (h : stringLength? (c :: rest) = some length) : 0 < length ∧ length ≤ rest.length + 1 := by
  rw [stringLength?] at h
  split_ifs at h
  obtain ⟨n, hn, rfl⟩ := map_eq_some_iff.mp h
  exact ⟨Nat.succ_pos n, Nat.succ_le_succ (stringRest?_le hn)⟩

/-- **String literals follow each other**, and none is empty. -/
theorem follow_stringLiterals (expression : Text) :
    Follow id expression.length 0 (stringLiterals expression) ∧
      ∀ x ∈ stringLiterals expression, x.1 < x.2 := by
  have h := follow_scan id stringLiteralsFrom (fun x => x.1 < x.2) (fun _ _ => rfl)
    (fun _ _ _ _ => rfl) ?_ expression 0 0
  · simpa [stringLiterals] using h
  · intro offset c rest
    rw [stringLiteralsFrom]
    cases hlength : stringLength? (c :: rest) with
    | none => exact .inl rfl
    | some length =>
      obtain ⟨hpos, hle⟩ := stringLength?_spec hlength
      exact .inr ⟨_, length, rfl, by simp only; omega, hpos, hle, rfl⟩

/-! ## Expressions in double braces -/

/-- Where an expression stands with its braces. -/
def mustacheSpan (m : Nat × Nat) : Nat × Nat := (m.1 - 2, m.2 + 2)

/-- **Expressions in double braces follow each other.** -/
theorem follow_mustaches (offset : Nat) (t : Text) :
    Follow mustacheSpan (offset + t.length) offset (mustaches offset t) ∧
      ∀ m ∈ mustaches offset t, 2 ≤ m.1 ∧ m.1 ≤ m.2 := by
  have h := follow_scan mustacheSpan mustachesFrom (fun m => 2 ≤ m.1 ∧ m.1 ≤ m.2) (fun _ _ => rfl)
    (fun _ _ _ _ => rfl) ?_ t offset 0
  · simpa [mustaches] using h
  · intro offset c rest
    rw [mustachesFrom]
    split
    · exact .inl rfl
    · rename_i close hclose
      split_ifs at hclose
      obtain ⟨hle, hlen⟩ := Text.findFrom?_le hclose
      have hlen' : close + 2 ≤ rest.length + 1 := hlen
      refine .inr ⟨_, close + 2, ?_, ?_, by omega, hlen', rfl⟩
      · simp only [mustacheSpan, Prod.mk.injEq]
        omega
      · simp only
        omega

/-! ## Attributes -/

/-- Where an attribute stands. -/
def Attribute.span (a : Attribute) : Nat × Nat := (a.start, a.stop)

/-- An attribute that a text begins with ends in it, and has its value inside. -/
lemma attributeAt?_spec {offset : Nat} {a : Attribute} (h : attributeAt? offset t = some a) :
    a.start = offset ∧ a.stop ≤ offset + t.length ∧ a.start < a.valueStart ∧
      a.valueStart ≤ a.valueStop := by
  simp only [attributeAt?, bind_eq_bind, bind_eq_some_iff] at h
  obtain ⟨quote, -, h⟩ := h
  split_ifs at h with hbad
  obtain rfl := some.inj h
  simp only [Bool.or_eq_true, decide_eq_true_eq, not_or, length_drop] at hbad
  refine ⟨rfl, ?_, ?_, ?_⟩
  · simp only [Attribute.stop]
    omega
  · simp only
    omega
  · exact Nat.le_add_right _ _

attribute [local irreducible] attributeAt? in
/-- What the scanner of attributes does where nothing is skipped. -/
lemma attributesFrom_zero (offset : Nat) (c : CodePoint) (rest : Text) :
    attributesFrom offset 0 (c :: rest) =
      match attributeAt? offset (c :: rest) with
      | none => attributesFrom (offset + 1) 0 rest
      | some a => a :: attributesFrom (offset + 1) (a.stop - offset - 1) rest := rfl

/-- **The attributes of a tag follow each other**, each with its value inside. -/
theorem follow_attributesOf (offset : Nat) (tag : Text) :
    Follow Attribute.span (offset + tag.length) offset (attributesOf offset tag) ∧
      ∀ a ∈ attributesOf offset tag, a.start < a.valueStart ∧ a.valueStart ≤ a.valueStop := by
  have h := follow_scan Attribute.span attributesFrom
    (fun a => a.start < a.valueStart ∧ a.valueStart ≤ a.valueStop)
    (fun _ _ => rfl) (fun _ _ _ _ => rfl) ?_ tag offset (tagNameLength tag)
  · exact ⟨h.1.of_le (Nat.le_add_right _ _), h.2⟩
  · intro offset c rest
    rw [attributesFrom_zero]
    cases hattr : attributeAt? offset (c :: rest) with
    | none => exact .inl rfl
    | some a =>
      obtain ⟨hstart, hstop, hvalue, hle⟩ := attributeAt?_spec hattr
      have hlt : a.start < a.stop := by
        rw [Attribute.stop]
        omega
      have hlen : offset + (a.stop - offset) = a.stop := by omega
      rw [length_cons] at hstop
      refine .inr ⟨a, a.stop - offset, ?_, ⟨hvalue, hle⟩, by omega, by omega, rfl⟩
      rw [hlen, ← hstart]
      rfl

/-! ## Tags and text -/

/-- Where a part stands. -/
def Part.span : Part → Nat × Nat
  | .tag start stop => (start, stop)
  | .text start stop => (start, stop)

/-- Where the part begins that the scanner is in. -/
def MarkupState.cursor (offset : Nat) : MarkupState → Nat
  | .text start => start
  | .comment _ => offset
  | .tag start _ => start

lemma follow_textPart {start stop : Nat} (h : start ≤ stop) :
    Follow Part.span stop start (textPart start stop) := by
  rw [textPart]
  split_ifs
  · exact ⟨Nat.le_refl _, h, Nat.le_refl _⟩
  · exact h

/-- Parts follow each other from where the scanner's part begins. -/
lemma follow_markupPartsFrom (t : Text) (offset : Nat) (state : MarkupState)
    (h : state.cursor offset ≤ offset) :
    Follow Part.span (offset + t.length) (state.cursor offset) (markupPartsFrom offset state t) := by
  induction t generalizing offset state with
  | nil =>
    cases state with
    | text start => exact follow_textPart h
    | comment left => exact h
    | tag start quote => exact ⟨Nat.le_refl _, h, Nat.le_refl _⟩
  | cons c rest ih =>
    rw [length_cons, show offset + (rest.length + 1) = offset + 1 + rest.length by omega]
    cases state with
    | text start =>
      simp only [markupPartsFrom]
      split_ifs
      · exact ((ih (offset + 1) (.comment _) (Nat.le_refl _)).of_le (Nat.le_succ _)).append
          (follow_textPart h)
      · exact (ih (offset + 1) (.tag offset none) (Nat.le_succ _)).append (follow_textPart h)
      · exact ih (offset + 1) (.text start) (Nat.le_succ_of_le h)
    | comment left =>
      simp only [markupPartsFrom]
      split_ifs
      · exact (ih (offset + 1) (.text (offset + 1)) (Nat.le_refl _)).of_le (Nat.le_succ _)
      · exact (ih (offset + 1) (.comment _) (Nat.le_refl _)).of_le (Nat.le_succ _)
    | tag start quote =>
      have hgo : ∀ quote, Follow Part.span (offset + 1 + rest.length) start
          (markupPartsFrom (offset + 1) (.tag start quote) rest) := fun quote =>
        ih (offset + 1) (.tag start quote) (Nat.le_succ_of_le h)
      cases quote with
      | some quote => exact hgo _
      | none =>
        simp only [markupPartsFrom]
        split_ifs
        · exact hgo _
        · exact ⟨Nat.le_refl _, Nat.le_succ_of_le h,
            ih (offset + 1) (.text (offset + 1)) (Nat.le_refl _)⟩
        · exact hgo _

/-- **The parts of a template follow each other.** -/
theorem follow_markupParts (t : Text) : Follow Part.span t.length 0 (markupParts t) := by
  have h := follow_markupPartsFrom t 0 (.text 0) (Nat.le_refl _)
  rwa [Nat.zero_add] at h

end Phrasebook
