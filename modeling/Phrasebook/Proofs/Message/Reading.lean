import Phrasebook.Message.Placeholder
import Phrasebook.Proofs.Message.Canonical
import Phrasebook.Proofs.Text.Backslashes

/-!
# Two readings of a payload

A payload is read as characters and embedded expressions. There are two ways to do this: in the one, an
expression behind an odd run of backslashes is text, in the other one it is an expression like all others.

## Main results

* `canonicalize_eq_message` — the canonical text numbers the expressions of the first reading.
* `positionalArguments_eq` — the positional arguments are those of the second one.
* `MessageItem.reading_eq_iff` — when the two are the same.
-/

namespace Phrasebook

open List

variable {inner : Text} {x : Nat × Text}

/-! ## Embedded expressions -/

/-- Texts are read expression by expression: a character that begins no expression, or an expression. -/
@[elab_as_elim]
lemma embeddedInduction {motive : Text → Prop} (nil : motive [])
    (point : ∀ c rest, embedded? (c :: rest) = none → motive rest → motive (c :: rest))
    (expression : ∀ inner rest, IsEmbeddable inner → motive ("\x7b" ++ (inner ++ ("\x7d" ++ rest))) →
      motive rest → motive ("$\x7b" ++ (inner ++ ("\x7d" ++ rest)))) (t : Text) : motive t := by
  induction hlength : t.length using Nat.strong_induction_on generalizing t with
  | _ length ih =>
    subst hlength
    cases t with
    | nil => exact nil
    | cons c rest =>
      cases hinner : embedded? (c :: rest) with
      | none => exact point c rest hinner (ih _ (Nat.lt_succ_self _) rest rfl)
      | some inner =>
        obtain ⟨hembeddable, after, heq⟩ := exists_of_embedded? hinner
        rw [heq] at ih ⊢
        exact expression inner after hembeddable (ih _ (by simp [Text.ofString]) _ rfl)
          (ih _ (by simp [Text.ofString]; omega) _ rfl)

/-! ## Items -/

/-- What a payload consists of. -/
inductive MessageItem where
  | point (c : CodePoint)
  | expression (inner : Text)
  deriving DecidableEq

namespace MessageItem

/-- How an item is spelled. -/
def source : MessageItem → Text
  | point c => [c]
  | expression inner => "$\x7b" ++ (inner ++ "\x7d")

/-- How items are spelled. -/
def spell (items : List MessageItem) : Text := items.flatMap source

/-- Items as the text of a message, with placeholders for expressions that are numbered from `n` on. -/
def message (n : Nat) : List MessageItem → Text
  | [] => []
  | point c :: rest => c :: message n rest
  | expression _ :: rest => placeholder n ++ message (n + 1) rest

/-- The expressions among items that begin at an offset, with their own offsets. -/
def located (offset : Nat) : List MessageItem → List (Nat × Text)
  | [] => []
  | point _ :: rest => located (offset + 1) rest
  | expression inner :: rest => (offset, inner) :: located (offset + (inner.length + 3)) rest

/-- A text as items, behind a run of backslashes; `skip` characters still belong to the last expression. If
escapes are honoured, an expression behind an odd run is text. -/
def readFrom (honoured : Bool) (run skip : Nat) : Text → List MessageItem
  | [] => []
  | c :: rest =>
    match skip with
    | skip + 1 => readFrom honoured 0 skip rest
    | 0 =>
      match if honoured && run % 2 == 1 then none else embedded? (c :: rest) with
      | none => point c :: readFrom honoured (if c = '\\' then run + 1 else 0) 0 rest
      | some inner => expression inner :: readFrom honoured 0 (inner.length + 2) rest

/-- **A payload as items**, with escapes honoured or not. -/
def reading (honoured : Bool) (payload : Text) : List MessageItem := readFrom honoured 0 0 payload

variable {honoured : Bool} {run : Nat}

/-! ## One item at a time -/

lemma readFrom_point {c : CodePoint} {rest : Text}
    (h : (honoured ∧ run % 2 = 1) ∨ embedded? (c :: rest) = none) :
    readFrom honoured run 0 (c :: rest) =
      point c :: readFrom honoured (if c = '\\' then run + 1 else 0) 0 rest := by
  have hnone : (if honoured && run % 2 == 1 then none else embedded? (c :: rest)) = none := by
    rcases h with ⟨rfl, hodd⟩ | hnone
    · simp [hodd]
    · rw [hnone, ite_self]
  rw [readFrom, hnone]

lemma readFrom_skip {u : Text} (rest : Text) {skip : Nat} (hskip : skip = u.length) (hrun : u = [] → run = 0) :
    readFrom honoured run skip (u ++ rest) = readFrom honoured 0 0 rest := by
  induction u generalizing run skip with
  | nil => rw [hskip, hrun rfl, length_nil, nil_append]
  | cons c u ih => rw [hskip, length_cons, cons_append, readFrom, ih rfl fun _ => rfl]

lemma readFrom_expression (hinner : IsEmbeddable inner) (h : honoured = false ∨ run % 2 = 0) (rest : Text) :
    readFrom honoured run 0 ("$\x7b" ++ (inner ++ ("\x7d" ++ rest))) =
      expression inner :: readFrom honoured 0 0 rest := by
  have hlive : (honoured && run % 2 == 1) = false := by
    rcases h with rfl | heven
    · rfl
    · simp [heven]
  have hsplit : ("$\x7b" ++ (inner ++ ("\x7d" ++ rest)) : Text) =
      .scalar '$' :: (.scalar '\x7b' :: (inner ++ [.scalar '\x7d']) ++ rest) := by simp [Text.ofString]
  have hembedded := hinner.embedded?_eq rest
  rw [hsplit] at hembedded ⊢
  rw [readFrom, hlive, hembedded]
  exact congrArg (expression inner :: ·) (readFrom_skip rest (by simp) (by simp))

/-- An escaped expression is read as text. -/
lemma readFrom_escaped (hodd : run % 2 = 1) (rest : Text) :
    readFrom true run 0 ("$\x7b" ++ (inner ++ ("\x7d" ++ rest))) =
      point '$' :: readFrom true 0 0 ("\x7b" ++ (inner ++ ("\x7d" ++ rest))) :=
  readFrom_point (.inl ⟨rfl, hodd⟩)

/-- A reading spells the payload. -/
lemma spell_readFrom (honoured : Bool) (run : Nat) (t : Text) : spell (readFrom honoured run 0 t) = t := by
  induction t using embeddedInduction generalizing run with
  | nil => rfl
  | point c rest hnone ih =>
    rw [readFrom_point (.inr hnone), spell, flatMap_cons, ← spell, ih]
    rfl
  | expression inner rest hinner ihescaped ihrest =>
    by_cases hlive : honoured = false ∨ run % 2 = 0
    · rw [readFrom_expression hinner hlive, spell, flatMap_cons, ← spell, ihrest, source,
        append_assoc, append_assoc]
    · obtain ⟨rfl, hodd⟩ : honoured ∧ run % 2 = 1 := by
        simpa using not_or.mp hlive
      rw [readFrom_escaped hodd, spell, flatMap_cons, ← spell, ihescaped]
      rfl

/-- A payload is spelled by its reading. -/
theorem spell_reading (honoured : Bool) (payload : Text) : spell (reading honoured payload) = payload :=
  spell_readFrom honoured 0 payload

/-! ## The canonical text -/

lemma readFrom_escapes (honoured : Bool) (run k : Nat) (rest : Text) :
    readFrom honoured run 0 (escapes k ++ rest) =
      (escapes k).map point ++ readFrom honoured (run + k) 0 rest := by
  induction k generalizing run with
  | zero => rfl
  | succ k ih =>
    rw [escapes_succ, cons_append, readFrom_point (.inr (embedded?_eq_none (by simp))), if_pos rfl, ih,
      Nat.add_right_comm, Nat.add_assoc]
    rfl

lemma message_points (n : Nat) (t : Text) (items : List MessageItem) :
    message n (t.map point ++ items) = t ++ message n items := by
  induction t with
  | nil => rfl
  | cons c t ih => exact congrArg (c :: ·) ih

end MessageItem

open MessageItem

lemma Text.exists_escapes (t : Text) : ∃ k rest, t = escapes k ++ rest ∧ rest.head? ≠ some '\\' := by
  induction t with
  | nil => exact ⟨0, [], rfl, by simp⟩
  | cons c t ih =>
    by_cases hc : c = '\\'
    · obtain ⟨k, rest, rfl, hrest⟩ := ih
      exact ⟨k + 1, rest, by rw [hc, escapes_succ, cons_append], hrest⟩
    · exact ⟨0, c :: t, rfl, by simpa using hc⟩

/-- The canonical text numbers the expressions that are not escaped.

**Proof sketch.** Induction on the length of the text. It begins with a run of backslashes. If an expression
comes next and the run is even, it becomes a placeholder; else the run and what comes next are copied. -/
lemma canonicalFrom_eq_message (count : Nat) (t : Text) :
    canonicalFrom false 0 count t = message (count + 1) (readFrom true 0 0 t) := by
  induction hlength : t.length using Nat.strong_induction_on generalizing t count with
  | _ length ih =>
    subst hlength
    obtain ⟨k, rest, rfl, hrest⟩ := t.exists_escapes
    rw [readFrom_escapes, message_points, Nat.zero_add]
    cases rest with
    | nil => rw [append_nil, canonicalFrom_escapes, readFrom, message, append_nil]
    | cons c rest =>
      have hc : c ≠ '\\' := by simpa using hrest
      by_cases htext : k % 2 = 1 ∨ embedded? (c :: rest) = none
      · rw [canonicalFrom_run hc htext, ih _ (by simp; omega) _ _ rfl,
          readFrom_point (htext.imp_left fun hodd => ⟨rfl, hodd⟩), if_neg hc, message]
      · obtain ⟨heven, hsome⟩ := not_or.mp htext
        obtain ⟨inner, hinner⟩ := Option.ne_none_iff_exists'.mp hsome
        obtain ⟨hembeddable, after, heq⟩ := exists_of_embedded? hinner
        have heven : k % 2 = 0 := by omega
        rw [heq] at ih ⊢
        rw [canonicalFrom_live heven hembeddable.ne_nil hembeddable.not_brace,
          ih _ (by simp [Text.ofString]; omega) _ _ rfl, readFrom_expression hembeddable (.inr heven), message]

/-- The canonical text, from a reading. -/
theorem canonicalize_eq_message (payload : Text) :
    canonicalize payload = message 1 (reading true payload) :=
  canonicalFrom_eq_message 0 payload

/-! ## Positional arguments -/

/-- The positional arguments from a point of a text on number the expressions from there on. -/
lemma positionalArguments_eq_mapIdx (offset skip count run : Nat) (t : Text) :
    positionalArguments offset skip count t =
      (located (offset + skip) (readFrom false run skip t)).mapIdx fun i x =>
        (x.1, ⟨argumentName (count + i + 1), x.2.trim⟩) := by
  induction t generalizing offset skip count run with
  | nil => rfl
  | cons c rest ih =>
    cases skip with
    | succ skip =>
      rw [positionalArguments, readFrom, ih (offset + 1) skip count 0]
      congr 2
      omega
    | zero =>
      rw [positionalArguments, readFrom, Bool.false_and, if_neg Bool.false_ne_true]
      cases embedded? (c :: rest) with
      | none => exact ih (offset + 1) 0 count _
      | some inner =>
        have hoffset : offset + 1 + (inner.length + 2) = offset + (inner.length + 3) := by omega
        have hnumber : ∀ i, count + 1 + i + 1 = count + (i + 1) + 1 := fun i => by omega
        simp only [located, mapIdx_cons, ih (offset + 1) (inner.length + 2) (count + 1) 0, hoffset,
          hnumber, Nat.add_zero]

/-- **The positional arguments number all expressions.** -/
theorem positionalArguments_eq (payload : Text) :
    positionalArguments 0 0 0 payload = (located 0 (reading false payload)).mapIdx fun i x =>
      (x.1, ⟨argumentName (i + 1), x.2.trim⟩) := by
  rw [reading, positionalArguments_eq_mapIdx 0 0 0 0]
  simp only [Nat.zero_add]

namespace MessageItem

variable {honoured : Bool} {run : Nat}

/-! ## Escaped expressions -/

/-- Where an expression stands. -/
lemma exists_of_mem_located {offset : Nat} {items : List MessageItem} (h : x ∈ located offset items) :
    ∃ before after, items = before ++ expression x.2 :: after ∧ x.1 = offset + (spell before).length := by
  induction items generalizing offset with
  | nil => cases h
  | cons item items ih =>
    cases item with
    | point c =>
      obtain ⟨before, after, rfl, hoffset⟩ := ih (h : x ∈ located (offset + 1) items)
      refine ⟨point c :: before, after, rfl, ?_⟩
      rw [hoffset, spell, spell, flatMap_cons, length_append, source, length_singleton,
        Nat.add_assoc]
    | expression inner =>
      rcases mem_cons.mp h with rfl | h
      · exact ⟨[], items, rfl, rfl⟩
      · obtain ⟨before, after, rfl, hoffset⟩ := ih h
        refine ⟨expression inner :: before, after, rfl, ?_⟩
        rw [hoffset, spell, spell, flatMap_cons, length_append]
        simp [source, Text.ofString]
        omega

/-- Where an expression of a reading stands, the payload goes on with it. -/
lemma drop_of_mem_located {payload : Text} (h : x ∈ located 0 (reading honoured payload)) :
    ∃ rest, payload.drop x.1 = "$\x7b" ++ (x.2 ++ ("\x7d" ++ rest)) := by
  obtain ⟨before, after, heq, hoffset⟩ := exists_of_mem_located h
  have hspell := spell_reading honoured payload
  rw [heq, spell, flatMap_append, flatMap_cons] at hspell
  refine ⟨spell after, ?_⟩
  rw [← hspell, hoffset, Nat.zero_add, spell, drop_left, source, append_assoc, append_assoc]
  rfl

/-- Expressions follow each other. -/
lemma pairwise_located (offset : Nat) (items : List MessageItem) :
    (located offset items).Pairwise fun x y => x.1 < y.1 := by
  induction items generalizing offset with
  | nil => exact List.Pairwise.nil
  | cons item items ih =>
    cases item with
    | point c => exact ih (offset + 1)
    | expression inner =>
      refine pairwise_cons.mpr ⟨fun y hy => ?_, ih _⟩
      obtain ⟨_, _, -, hoffset⟩ := exists_of_mem_located hy
      simp only
      omega

/-- The readings are the same if no expression is escaped, from a point of a text on.

**Proof sketch.** Along the text: both readings go on with the same item, as long as none is an expression
behind an odd run of backslashes, which is text in the one reading only. -/
lemma readFrom_eq_iff (done t : Text) (hrun : run = endingBackslashes done) :
    readFrom true run 0 t = readFrom false run 0 t ↔
      ∀ x ∈ located done.length (readFrom false run 0 t), endingBackslashes ((done ++ t).take x.1) % 2 = 0 := by
  induction t using embeddedInduction generalizing done run with
  | nil => simp [readFrom, located]
  | point c rest hnone ih =>
    have hnext : (if c = '\\' then run + 1 else 0) = endingBackslashes (done ++ [c]) := by
      split_ifs with hc
      · rw [hc, endingBackslashes_append, if_pos (by decide), hrun, length_singleton, Nat.add_comm]
      · rw [endingBackslashes_concat hc]
    have hrest := ih (done ++ [c]) hnext
    rw [append_assoc, singleton_append, length_append, length_singleton] at hrest
    rw [readFrom_point (.inr hnone), readFrom_point (.inr hnone), cons_inj_right, located, hrest]
  | expression inner rest hinner _ ih =>
    rw [readFrom_expression hinner (.inl rfl), located, forall_mem_cons, take_left, ← hrun]
    by_cases heven : run % 2 = 0
    · have hbrace : 0 = endingBackslashes (done ++ ("$\x7b" ++ (inner ++ "\x7d"))) := by
        rw [← append_assoc, ← append_assoc]
        exact (endingBackslashes_concat (by decide) _).symm
      have hrest := ih _ hbrace
      rw [readFrom_expression hinner (.inr heven), cons_inj_right, and_iff_right heven, hrest]
      simp [Text.ofString]
    · rw [readFrom_escaped (by omega)]
      exact iff_of_false (by simp) fun h => heven h.1

/-- When the two readings are the same. -/
theorem reading_eq_iff (payload : Text) :
    reading true payload = reading false payload ↔
      ∀ x ∈ located 0 (reading false payload), endingBackslashes (payload.take x.1) % 2 = 0 :=
  readFrom_eq_iff [] payload rfl

end MessageItem

end Phrasebook
