import Phrasebook.Proofs.Literal.Decoding
import Phrasebook.Proofs.Message.KeyLiteral
import Phrasebook.Proofs.Text.Order

/-!
# What the literal of a key stands for

Each character of a key is written as one spelling, which stands for that character and nothing else.

## Main results

* `Key.literals_denote_key` — the literal of a key is decoded to the key again, wherever it stands.
-/

namespace Phrasebook

/-- **A string literal that stands for a text**: between its quotes there is what is decoded to the text, in
which the quote occurs only escaped, and the quote at the end is not escaped. -/
def Denotes (literal : Text) (quote : CodePoint) (t : Text) : Prop :=
  ∃ inner, literal = quote :: inner ++ [quote] ∧ (decodeLiteral inner).map Decoded.text = .ok t ∧
    IsEscapedIn [quote] inner ∧ endingBackslashes inner % 2 = 0

/-- The number of a control character, with four digits. -/
lemma codeDigits_hex : ∀ n < 0x20, CodeDigits (Text.hex 4 n) n := by
  have hall : ∀ n < 0x20, (Text.hex 4 n).length = 4 ∧ hexValue? (Text.hex 4 n) = some n := by decide +kernel
  exact fun n hn => .four (hall n hn).1 (hall n hn).2

/-- A character in a JSON string is one spelling, which stands for it. -/
lemma exists_spells_escapePoint (c : CodePoint) :
    ∃ m, Spellings.Owns m c ∧ ∀ rest, Spells rest (Json.escapePoint c) m := by
  have hletter : ∀ {e : CodePoint}, simpleEscape? e = some c →
      ∃ m, Spellings.Owns m c ∧ ∀ rest, Spells rest ['\\', e] m := fun he =>
    ⟨.point c, Spellings.owns_point c, fun _ => .simple he⟩
  rw [Json.escapePoint]
  split_ifs with hquote hslash hline hreturn htab hback hform hcontrol
  · obtain rfl := eq_of_beq hquote
    exact hletter (by decide)
  · obtain rfl := eq_of_beq hslash
    exact hletter (by decide)
  · obtain rfl := eq_of_beq hline
    exact hletter (e := 'n') (by decide)
  · obtain rfl := eq_of_beq hreturn
    exact hletter (e := 'r') (by decide)
  · obtain rfl := eq_of_beq htab
    exact hletter (e := 't') (by decide)
  · obtain rfl : c = '\x08' := CodePoint.eq_of_toNat_eq hback
    exact hletter (e := 'b') (by decide)
  · obtain rfl : c = '\x0c' := CodePoint.eq_of_toNat_eq hform
    exact hletter (e := 'f') (by decide)
  · have hlow : CodePoint.isLowSurrogateCode c.toNat = false := by
      simp only [CodePoint.isLowSurrogateCode, Bool.and_eq_false_imp, decide_eq_true_eq]
      omega
    exact ⟨.code c.toNat, Spellings.owns_code c.ofNat?_toNat hlow, fun _ => .code (codeDigits_hex _ hcontrol)⟩
  · exact ⟨.point c, Spellings.owns_point c, fun _ => .plain (by simpa using hslash)⟩

/-- **A character of a key** is one spelling, which stands for it. -/
theorem exists_spells_keyPoint (mark : Option QuoteMark) (c : CodePoint) :
    ∃ m, Spellings.Owns m c ∧ ∀ rest, Spells rest (keyPoint mark c) m := by
  rcases mark with _ | _ | _
  · exact exists_spells_escapePoint c
  · rw [keyPoint]
    split_ifs with hsingle
    · subst hsingle
      exact ⟨.code 0x27, Spellings.owns_code (by decide) (by decide), fun _ => .code (.four rfl (by decide))⟩
    · exact exists_spells_escapePoint c
  · rw [keyPoint]
    split_ifs with hdouble hsingle
    · subst hdouble
      exact ⟨.code 0x22, Spellings.owns_code (by decide) (by decide), fun _ => .code (.four rfl (by decide))⟩
    · subst hsingle
      exact ⟨.point _, Spellings.owns_point _, fun _ => .simple (by decide)⟩
    · exact exists_spells_escapePoint c

/-- The characters of a text, written one behind the other, are spellings that stand for them. -/
lemma exists_reads_keyPoint (mark : Option QuoteMark) (t : Text) :
    ∃ us : Spellings, us.Reads ∧ us.text = t.flatMap (keyPoint mark) ∧
      List.Forall₂ Spellings.Owns us.meanings t := by
  induction t with
  | nil => exact ⟨[], .nil, rfl, .nil⟩
  | cons c t ih =>
    obtain ⟨us, hus, htext, howns⟩ := ih
    obtain ⟨m, hm, hspells⟩ := exists_spells_keyPoint mark c
    refine ⟨(keyPoint mark c, m) :: us, .cons (hspells _) hus, ?_, .cons hm howns⟩
    rw [Spellings.text_cons, List.flatMap_cons, htext]

/-- In what can stand inside of a string literal, its quote is escaped, and so is nothing behind it. -/
lemma Passable.isEscapedIn {q : CodePoint} (hq : q ≠ '\\') {t : Text} (h : Passable q t) :
    IsEscapedIn [q] t ∧ endingBackslashes t % 2 = 0 := by
  induction h with
  | nil => exact ⟨.nil _, rfl⟩
  | @plain c rest hquote hline hslash _ ih =>
    refine ⟨ih.1.cons hslash fun hbegins => hquote (List.cons_prefix_cons.mp hbegins).1.symm, ?_⟩
    rw [← List.singleton_append, endingBackslashes_append_mod_two, ih.2]
    rw [endingBackslashes_singleton hslash]
  | @escape d rest _ _ ih =>
    exact ⟨ih.1.escape hq d, (endingBackslashes_append_mod_two (endingBackslashes_escape d) rest).trans ih.2⟩

namespace Key

/-- **A key in any position**, between the quotes of an attribute or outside of any. -/
theorem denotes_attributeLiteral (t : Text) (mark : Option QuoteMark) :
    Denotes ((name t).attributeLiteral mark) (keyQuote mark).point t := by
  obtain ⟨us, hus, htext, howns⟩ := exists_reads_keyPoint mark t
  have hquote : (keyQuote mark).point ≠ '\\' := by cases keyQuote mark <;> decide
  refine ⟨t.flatMap (keyPoint mark), attributeLiteral_name t mark, ?_,
    (passable_flatMap_keyPoint mark t).isEscapedIn hquote⟩
  rw [← htext, Spellings.map_text_decodeLiteral hus, Spellings.value_of_owns howns]

/-- **The literals of a key stand for it.** The literal of a text as a key is decoded to that text, in a
script and in every position of a component's template; its own quote occurs in it only escaped, and in an
attribute the quote of the attribute does not occur in it at all. -/
theorem literals_denote_key (t : Text) :
    Denotes (name t).literal '"' t ∧
      (∀ mark, Denotes ((name t).attributeLiteral mark) (keyQuote mark).point t) ∧
      ∀ q : QuoteMark, q.point ∉ (name t).attributeLiteral (some q) :=
  ⟨denotes_attributeLiteral t none, denotes_attributeLiteral t, notMem_attributeLiteral (name t)⟩

end Key

end Phrasebook
