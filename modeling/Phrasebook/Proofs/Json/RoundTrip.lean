import Phrasebook.Json.Reader
import Phrasebook.Json.Writer
import Phrasebook.Proofs.Text.Order

/-!
# Reading back what was written as JSON

Each code point is written in one of three ways, by an escape with one letter, by its number or as it
is, and reading undoes each of them in one step.

## Main results

* `Json.readString_flatMap_escapePoint` — a text that is written as a JSON string is read back as it was,
  whatever it holds.
* `Json.parse_render_ofTexts` — so is an object whose members are texts.
-/

namespace Phrasebook

open List

variable {c d : CodePoint} {fuel : Nat} {table : List (Text × Text)}

namespace Json

/-! ## Texts -/

/-- Four hexadecimal digits spell the number of a control. -/
lemma hexQuad?_hex : ∀ n < 0x20, ∃ a b c d, Text.hex 4 n = [a, b, c, d] ∧ hexQuad? a b c d = some n := by
  have hall : ∀ n < 0x20, let digit := fun i => (Text.hex 4 n).getD i '0'
      Text.hex 4 n = [digit 0, digit 1, digit 2, digit 3] ∧
        hexQuad? (digit 0) (digit 1) (digit 2) (digit 3) = some n := by decide
  exact fun n hn => ⟨_, _, _, _, hall n hn⟩

lemma joinEscape_of_lt (hc : c.toNat < 0x20) (escaped : Bool) (t : Text) :
    joinEscape c.toNat escaped t = c :: t := by
  have hhigh : c.isHighSurrogate = false := by
    simp only [CodePoint.isHighSurrogate, Bool.and_eq_false_imp, decide_eq_true_eq]
    omega
  simp only [joinEscape, CodePoint.ofNat?_toNat, Option.getD_some, hhigh, Bool.false_and]
  cases t <;> rfl

section ReadString

variable (start : Nat) (rest : Text)

/-- What is read if a code point stands in front. -/
def readAfter (c : CodePoint) : Except Stop (Text × Text) :=
  (readString start rest).map fun read => (c :: read.1, read.2)

lemma readString_letter {sign : CodePoint} (hsign : sign ≠ 'u')
    (hd : escapedLetter? sign = some d) :
    readString start ('\\' :: sign :: rest) = readAfter start rest d := by
  rw [readString.eq_5 start sign rest (fun _ _ _ _ _ _ h _ => hsign h) hsign, hd, readAfter]
  cases readString start rest <;> rfl

lemma readString_plain (hquote : c ≠ '"') (hslash : c ≠ '\\')
    (hcontrol : ¬ c.toNat < 0x20) : readString start (c :: rest) = readAfter start rest c := by
  rw [readString.eq_6 start c rest hquote (fun _ _ _ _ _ _ h _ => hslash h) (fun _ h _ => hslash h)
    fun _ _ h _ => hslash h, if_neg (by simpa using hslash), if_neg hcontrol, readAfter]
  cases readString start rest <;> rfl

/-- An escape with a number. Something has to follow it, as the closing quote always does. -/
lemma readString_control (hcontrol : c.toNat < 0x20) (hrest : rest ≠ []) :
    readString start ('\\' :: 'u' :: (Text.hex 4 c.toNat ++ rest)) =
      readAfter start rest c := by
  obtain ⟨w, x, y, z, hhex, hquad⟩ := hexQuad?_hex c.toNat hcontrol
  obtain ⟨next, rest, rfl⟩ := exists_cons_of_ne_nil hrest
  rw [hhex]
  show readString start ('\\' :: 'u' :: w :: x :: y :: z :: next :: rest) = _
  rw [readString.eq_3, hquad, readAfter]
  simp only [joinEscape_of_lt hcontrol]
  cases readString start (next :: rest) <;> rfl

/-- **An escaped code point is read back.** -/
theorem readString_escapePoint (c : CodePoint) (hrest : rest ≠ []) :
    readString start (escapePoint c ++ rest) = readAfter start rest c := by
  rw [escapePoint]
  split_ifs with hquote hslash hline hreturn htab hback hform hcontrol
  · rw [eq_of_beq hquote]
    exact readString_letter start rest (by decide) rfl
  · rw [eq_of_beq hslash]
    exact readString_letter start rest (by decide) rfl
  · rw [eq_of_beq hline]
    exact readString_letter start rest (by decide) rfl
  · rw [eq_of_beq hreturn]
    exact readString_letter start rest (by decide) rfl
  · rw [eq_of_beq htab]
    exact readString_letter start rest (by decide) rfl
  · obtain rfl : c = '\x08' := CodePoint.eq_of_toNat_eq hback
    exact readString_letter start rest (by decide) rfl
  · obtain rfl : c = '\x0c' := CodePoint.eq_of_toNat_eq hform
    exact readString_letter start rest (by decide) rfl
  · exact readString_control start rest hcontrol hrest
  · exact readString_plain start rest (by simpa using hquote) (by simpa using hslash) hcontrol

/-- **A text is read back from a JSON string.** -/
theorem readString_flatMap_escapePoint (t : Text) :
    readString start (t.flatMap escapePoint ++ .scalar '"' :: rest) = .ok (t, rest) := by
  induction t with
  | nil => rw [flatMap_nil, nil_append, readString]
  | cons c t ih =>
    rw [flatMap_cons, append_assoc, readString_escapePoint _ _ _ (by simp), readAfter, ih]
    rfl

end ReadString

/-! ## Objects of texts -/

lemma quote_append (t rest : Text) :
    quote t ++ rest = .scalar '"' :: (t.flatMap escapePoint ++ .scalar '"' :: rest) := by
  rw [quote, append_assoc, append_assoc]
  rfl

lemma skipSpace_indentation (level : Nat) (rest : Text) :
    skipSpace (indentation level ++ rest) = skipSpace rest := by
  have hblank : ∀ c ∈ indentation level, isSpace c := by
    refine forall_mem_cons.mpr ⟨rfl, fun c hc => ?_⟩
    rw [eq_of_mem_replicate hc]
    rfl
  rw [skipSpace, dropWhile_append_of_pos hblank]
  rfl

/-- Texts as members of an object. -/
def textMembers (table : List (Text × Text)) : List (Text × Json) :=
  table.map fun (name, value) => (name, .text value)

/-- An object whose members are texts. -/
def ofTexts (table : List (Text × Text)) : Json := .object (textMembers table)

lemma ok_bind {α β : Type} (a : α) (f : α → Except Stop β) : (Except.ok a >>= f) = f a := rfl

/-- A text that was written is read back. -/
lemma readValue_quote (fuel : Nat) (t rest : Text) :
    readValue (fuel + 1) (quote t ++ rest) = .ok (.text t, rest) := by
  rw [quote_append, readValue]
  simp only [readString_flatMap_escapePoint]
  rfl

/-- One member is read, and then the others. -/
lemma readMembers_member (fuel : Nat) (members : List (Text × Json)) (name value rest : Text) :
    readMembers (fuel + 2) members (quote name ++ ": " ++ quote value ++ rest) =
      match skipSpace rest with
      | .scalar '\x7d' :: left => .ok (put members name (.text value), left)
      | .scalar ',' :: left => readMembers (fuel + 1) (put members name (.text value)) (skipSpace left)
      | left => .error (.expectingComma, left.length) := by
  have hcolon : skipSpace (": " ++ (quote value ++ rest)) =
      .scalar ':' :: .scalar ' ' :: (quote value ++ rest) := rfl
  have hvalue : skipSpace (' ' :: (quote value ++ rest)) = quote value ++ rest := by
    rw [quote_append]
    rfl
  rw [append_assoc, append_assoc, quote_append, readMembers]
  simp only [readString_flatMap_escapePoint, ok_bind, hcolon, hvalue, readValue_quote]
  rfl

/-- The lines from a member on: the member, those after it, the end of the object, and what follows. -/
def memberLines (name value : Text) (table : List (Text × Text)) (left : Text) : Text :=
  quote name ++ ": " ++ quote value ++
    (renderMembers 1 (textMembers table) ++ (indentation 0 ++ .scalar '\x7d' :: left))

lemma skipSpace_memberLines (name value : Text) (table : List (Text × Text)) (left : Text) :
    skipSpace (indentation 1 ++ memberLines name value table left) = memberLines name value table left := by
  rw [skipSpace_indentation, memberLines, append_assoc, append_assoc, quote_append]
  rfl

lemma renderMembers_cons (name value : Text) (table : List (Text × Text)) (left : Text) :
    renderMembers 1 (textMembers ((name, value) :: table)) ++ (indentation 0 ++ .scalar '\x7d' :: left) =
      .scalar ',' :: (indentation 1 ++ memberLines name value table left) := by
  simp only [textMembers, map_cons, renderMembers, renderAt, memberLines, append_assoc]
  rfl

/-- The members of an object of texts are read back, and set one after the other. -/
lemma readMembers_memberLines (hfuel : table.length ≤ fuel)
    (members : List (Text × Json)) (name value left : Text) :
    readMembers (fuel + 2) members (memberLines name value table left) =
      .ok (putAll members (textMembers ((name, value) :: table)), left) := by
  induction table generalizing fuel members name value with
  | nil =>
    rw [memberLines, readMembers_member]
    rfl
  | cons member table ih =>
    obtain ⟨n, v⟩ := member
    obtain ⟨fuel, rfl⟩ : ∃ k, fuel = k + 1 :=
      Nat.exists_eq_add_one.mpr (Nat.lt_of_lt_of_le (Nat.succ_pos _) hfuel)
    have hmember : readMembers (fuel + 3) members (memberLines name value ((n, v) :: table) left) =
        readMembers (fuel + 2) (put members name (.text value))
          (skipSpace (indentation 1 ++ memberLines n v table left)) := by
      rw [memberLines, readMembers_member, renderMembers_cons]
      rfl
    rw [hmember, skipSpace_memberLines, ih (Nat.le_of_succ_le_succ hfuel)]
    rfl

lemma length_le_renderMembers (level : Nat) (members : List (Text × Json)) :
    members.length ≤ (renderMembers level members).length := by
  induction members with
  | nil => exact Nat.le_refl _
  | cons member members ih =>
    obtain ⟨name, value⟩ := member
    have hcomma : (Text.ofString ",").length = 1 := rfl
    simp only [renderMembers, length_append, length_cons, hcomma]
    omega

/-- An object of texts as a value; it begins after the opening brace. -/
lemma readValue_memberLines (hfuel : table.length ≤ fuel) (name value left : Text) :
    readValue (fuel + 3) ('\x7b' :: (indentation 1 ++ memberLines name value table left)) =
      .ok (.object (tableOf (textMembers ((name, value) :: table))), left) := by
  have hmembers := readMembers_memberLines hfuel [] name value left
  obtain ⟨body, hbody⟩ : ∃ body, memberLines name value table left = .scalar '"' :: body := by
    rw [memberLines, append_assoc, append_assoc, quote_append]
    exact ⟨_, rfl⟩
  rw [readValue]
  simp only [skipSpace_memberLines]
  rw [hbody] at hmembers ⊢
  show (readMembers (fuel + 2) [] (.scalar '"' :: body) >>= fun read => pure (Json.object read.1, read.2)) = _
  rw [hmembers]
  rfl

/-- A value with nothing but space behind it. -/
lemma parseValue_of_readValue {t left : Text} {value : Json} (hmark : t.startsWith ['\ufeff'] = false)
    (hread : readValue (t.length + 1) (skipSpace t) = .ok (value, left)) (hleft : skipSpace left = []) :
    parseValue t = .ok value := by
  simp only [parseValue, hmark, hread, bind, Except.bind, hleft]
  rfl

/-- **An object of texts is read back** from the lines on which it is written; of a name that is
repeated the last text counts. -/
theorem parse_render_ofTexts (table : List (Text × Text)) :
    parse ((ofTexts table).render ++ "\n") = .ok (.object (tableOf (textMembers table))) := by
  cases table with
  | nil => rfl
  | cons member table =>
    obtain ⟨name, value⟩ := member
    have hrender : (ofTexts ((name, value) :: table)).render ++ "\n" =
        CodePoint.scalar '\x7b' :: (indentation 1 ++ memberLines name value table "\n") := by
      simp only [ofTexts, textMembers, map_cons, render, renderAt, memberLines, append_assoc]
      rfl
    have hfuel : table.length + 1 ≤ (indentation 1 ++ memberLines name value table "\n").length := by
      have hmembers := length_le_renderMembers 1 (textMembers table)
      have hindentation : (indentation 1).length = 3 := rfl
      simp only [textMembers, length_map] at hmembers
      simp only [memberLines, textMembers, length_append, hindentation]
      omega
    obtain ⟨fuel, hlength⟩ := Nat.exists_eq_add_of_le hfuel
    have hvalue : parseValue ((ofTexts ((name, value) :: table)).render ++ "\n") =
        .ok (.object (tableOf (textMembers ((name, value) :: table)))) := by
      rw [hrender]
      have hread := readValue_memberLines (Nat.le_add_right table.length fuel) name value "\n"
      rw [show table.length + fuel + 3 = table.length + 1 + fuel + 2 by omega, ← hlength] at hread
      exact parseValue_of_readValue rfl hread rfl
    rw [parse, hvalue]

/-! ## What is written -/

/-- No control character is written. -/
lemma le_toNat_of_mem_escapePoint (h : d ∈ escapePoint c) : 0x20 ≤ d.toNat := by
  have hletter : ∀ {t : Text}, t ⊆ Text.ofString "\\\"nrtbf" → d ∈ t → 0x20 ≤ d.toNat := fun ht hd =>
    (by decide : ∀ d ∈ Text.ofString "\\\"nrtbf", 0x20 ≤ d.toNat) d (ht hd)
  have hhex : ∀ n < 0x20, ∀ d ∈ Text.ofString "\\u" ++ Text.hex 4 n, 0x20 ≤ d.toNat := by decide
  rw [escapePoint] at h
  split_ifs at h with hquote hslash hline hreturn htab hback hform hcontrol
  · exact hletter (by decide) h
  · exact hletter (by decide) h
  · exact hletter (by decide) h
  · exact hletter (by decide) h
  · exact hletter (by decide) h
  · exact hletter (by decide) h
  · exact hletter (by decide) h
  · exact hhex _ hcontrol d h
  · exact mem_singleton.mp h ▸ Nat.le_of_not_lt hcontrol

/-- The code points that stand between the texts of an object. -/
def layoutMarks : Text := "\x7b\x7d: ,\n"

section Written

variable {P : CodePoint → Prop} {table : List (Text × Text)}

/-- What holds of every code point of the members after the first, as they are written. -/
lemma forall_mem_renderMembers (hmarks : ∀ c ∈ layoutMarks, P c)
    (htable : ∀ member ∈ table, (∀ c ∈ quote member.1, P c) ∧ ∀ c ∈ quote member.2, P c) :
    ∀ c ∈ renderMembers 1 (textMembers table), P c := by
  have hlayout : ∀ {t : Text}, t ⊆ layoutMarks → ∀ c ∈ t, P c := fun ht c hc => hmarks c (ht hc)
  induction table with
  | nil => exact forall_mem_nil _
  | cons member table ih =>
    obtain ⟨⟨hname, hvalue⟩, htable⟩ := forall_mem_cons.mp htable
    simp only [textMembers, map_cons, renderMembers, renderAt, forall_mem_append] at ih ⊢
    exact ⟨⟨⟨⟨⟨hlayout (by decide), hlayout (by decide)⟩, hname⟩, hlayout (by decide)⟩, hvalue⟩, ih htable⟩

/-- **What holds of every code point of an object of texts** as it is written: it holds of the marks
between the texts, and of the texts as JSON strings. -/
theorem forall_mem_render_ofTexts (hmarks : ∀ c ∈ layoutMarks, P c)
    (htable : ∀ member ∈ table, (∀ c ∈ quote member.1, P c) ∧ ∀ c ∈ quote member.2, P c) :
    ∀ c ∈ (ofTexts table).render, P c := by
  have hlayout : ∀ {t : Text}, t ⊆ layoutMarks → ∀ c ∈ t, P c := fun ht c hc => hmarks c (ht hc)
  cases table with
  | nil => exact hlayout (by decide)
  | cons member table =>
    obtain ⟨⟨hname, hvalue⟩, htable⟩ := forall_mem_cons.mp htable
    have hmembers := forall_mem_renderMembers hmarks htable
    simp only [ofTexts, textMembers, map_cons, render, renderAt, forall_mem_append] at hmembers ⊢
    exact ⟨⟨⟨⟨⟨⟨⟨hlayout (by decide), hlayout (by decide)⟩, hname⟩, hlayout (by decide)⟩, hvalue⟩,
      hmembers⟩, hlayout (by decide)⟩, hlayout (by decide)⟩

end Written

end Json

end Phrasebook
