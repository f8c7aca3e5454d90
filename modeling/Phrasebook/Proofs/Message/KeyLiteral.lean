import Phrasebook.Proofs.Component.Scan

/-!
# Keys as literals

A key that is a text is written between quotes, character by character: most characters stand for
themselves, the others are escaped. Between the quotes of an attribute that mark is escaped too, or
the other one is taken around the key.

## Main results

* `passable_flatMap_keyPoint` — what is written is one string literal.
* `Key.notMem_attributeLiteral` — the mark of the attribute does not stand in it.
* `Key.mem_text_of_mem_attributeLiteral` — no character other than those of an escape is added.
-/

namespace Phrasebook

open List

variable {d : Char} {c : CodePoint} {t : Text} {k : Key}

/-! ## Replacing a character -/

/-- To replace a character is to replace each of them. -/
lemma replaceAll_point (c : CodePoint) (new t : Text) :
    t.replaceAll [c] new = t.flatMap fun x => if x = c then new else [x] := by
  induction t with
  | nil => rfl
  | cons x t ih =>
    rw [Text.replaceAll, Text.replaceFrom, flatMap_cons, ← ih]
    by_cases h : x = c
    · rw [if_pos (by simp [h]), if_pos h]
      rfl
    · rw [if_neg (by simpa using Ne.symm h), if_neg h]
      rfl

lemma mem_replaceAll_point {d : CodePoint} {new : Text} (h : d ∈ t.replaceAll [c] new) :
    d ∈ new ∨ d ∈ t ∧ d ≠ c := by
  rw [replaceAll_point] at h
  obtain ⟨x, hx, hd⟩ := mem_flatMap.mp h
  split_ifs at hd with hxc
  · exact .inl hd
  · rw [mem_singleton] at hd
    exact .inr ⟨hd ▸ hx, hd ▸ hxc⟩

lemma replaceAll_append (c : CodePoint) (new t t' : Text) :
    Text.replaceAll (t ++ t') [c] new = t.replaceAll [c] new ++ t'.replaceAll [c] new := by
  simp only [replaceAll_point, flatMap_append]

/-- Replacing characters of a text that has been put together character by character. -/
lemma replaceAll_flatMap (c : CodePoint) (new t : Text) (piece : CodePoint → Text) :
    Text.replaceAll (t.flatMap piece) [c] new = t.flatMap fun x => (piece x).replaceAll [c] new := by
  simp only [replaceAll_point, flatMap_assoc]

lemma replaceAll_of_notMem (h : c ∉ t) (new : Text) : t.replaceAll [c] new = t := by
  rw [replaceAll_point]
  induction t with
  | nil => rfl
  | cons x t ih =>
    rw [mem_cons, not_or] at h
    rw [flatMap_cons, if_neg (Ne.symm h.1), ih h.2]
    rfl

/-- A quote behind a backslash, in what holds no quote and is not followed by one. -/
lemma replaceAll_append_of_notMem {u r : Text} (hu : .scalar '"' ∉ u) (hr : r.head? ≠ some (.scalar '"'))
    (new : Text) :
    Text.replaceAll (u ++ r) "\\\"" new = u ++ Text.replaceAll r "\\\"" new := by
  induction u with
  | nil => rfl
  | cons x u ih =>
    rw [mem_cons, not_or] at hu
    rw [cons_append, Text.replaceAll, Text.replaceFrom, if_neg, ← Text.replaceAll, ih hu.2]
    · rfl
    · intro hstarts
      obtain ⟨s, hs⟩ := isPrefixOf_iff_prefix.mp hstarts
      obtain ⟨-, htail⟩ := List.cons.inj hs
      cases u with
      | nil =>
        refine hr ?_
        rw [← show .scalar '"' :: s = r from htail]
        rfl
      | cons y u =>
        obtain ⟨rfl, -⟩ := List.cons.inj htail
        exact hu.2 mem_cons_self

/-! ## How a character is written -/

/-- What is written for a character that does not stand for itself: a backslash, a letter or one of a
few signs, and perhaps digits. -/
inductive IsEscape : Text → Prop where
  | mk {sign : CodePoint} {digits : Text} (hsign : sign.isOneOf "\"\\'nrtbfu" = true)
      (hdigits : ∀ d ∈ digits, d.isOneOf "0123456789abcdef" = true) :
    IsEscape ('\\' :: sign :: digits)

/-- The number of a control character is written with four digits. -/
lemma isOneOf_hex : ∀ n < 0x20, ∀ d ∈ Text.hex 4 n, d.isOneOf "0123456789abcdef" := by
  decide +kernel

lemma IsEscape.ofSign {sign : CodePoint} (h : sign.isOneOf "\"\\'nrtbfu") : IsEscape ['\\', sign] :=
  .mk h fun _ hd => absurd hd not_mem_nil

/-- A character of one class is not one of another that has none of its characters. -/
lemma ne_of_isOneOf {s : String} (h : c.isOneOf s) (hd : d ∉ s.toList) : c ≠ .scalar d := by
  rintro rfl
  obtain ⟨e, he, heq⟩ := any_eq_true.mp h
  obtain rfl := CodePoint.scalar.inj (eq_of_beq heq)
  exact hd he

lemma IsEscape.notMem (h : IsEscape t) (hd : d ∉ "\"\\'nrtbfu0123456789abcdef".toList) : .scalar d ∉ t := by
  obtain ⟨hsign, hdigits⟩ := h
  intro hmem
  rcases mem_cons.mp hmem with heq | hmem
  · obtain rfl := CodePoint.scalar.inj heq
    exact hd (by decide)
  rcases mem_cons.mp hmem with heq | hmem
  · refine ne_of_isOneOf hsign (fun hin => hd ?_) heq.symm
    exact (by decide : "\"\\'nrtbfu".toList ⊆ "\"\\'nrtbfu0123456789abcdef".toList) hin
  · refine ne_of_isOneOf (hdigits _ hmem) (fun hin => hd ?_) rfl
    exact (by decide : "0123456789abcdef".toList ⊆ "\"\\'nrtbfu0123456789abcdef".toList) hin

/-- An escape ends no string. -/
lemma IsEscape.passable (h : IsEscape t) (q : QuoteMark) : Passable q.point t := by
  obtain ⟨hsign, hdigits⟩ := h
  refine .escape (ne_of_isOneOf hsign (by decide)) ?_
  rename_i digits
  induction digits with
  | nil => exact .nil
  | cons d digits ih =>
    obtain ⟨hd, hdigits⟩ := forall_mem_cons.mp hdigits
    refine .plain ?_ (ne_of_isOneOf hd (by decide)) (ne_of_isOneOf hd (by decide)) (ih hdigits)
    cases q <;> exact ne_of_isOneOf hd (by decide)

/-- A character in a JSON string stands for itself or is escaped. -/
lemma escapePoint_cases (c : CodePoint) :
    (Json.escapePoint c = [c] ∧ c ≠ '"' ∧ c ≠ '\\' ∧ c ≠ '\n') ∨
      IsEscape (Json.escapePoint c) := by
  rw [Json.escapePoint]
  split_ifs with hquote hslash hline hreturn htab hback hform hcontrol
  · exact .inr (.ofSign (by decide))
  · exact .inr (.ofSign (by decide))
  · exact .inr (.ofSign (by decide))
  · exact .inr (.ofSign (by decide))
  · exact .inr (.ofSign (by decide))
  · exact .inr (.ofSign (by decide))
  · exact .inr (.ofSign (by decide))
  · exact .inr (.mk (by decide) (isOneOf_hex _ hcontrol))
  · exact .inl ⟨rfl, by simpa using hquote, by simpa using hslash, by simpa using hline⟩

lemma notMem_escapePoint (q : QuoteMark) (hne : c ≠ q.point) : q.point ∉ Json.escapePoint c := by
  rw [Json.escapePoint]
  split_ifs with hquote hslash hline hreturn htab hback hform hcontrol
  · obtain rfl := eq_of_beq hquote
    cases q
    · decide
    · exact absurd rfl hne
  all_goals try (cases q <;> decide)
  · intro hmem
    have hdigit := isOneOf_hex _ hcontrol
    rcases mem_append.mp hmem with hmem | hmem
    · cases q <;> exact absurd hmem (by decide)
    · cases q <;> exact ne_of_isOneOf (hdigit _ hmem) (by decide) rfl
  · exact fun hmem => hne (mem_singleton.mp hmem).symm

/-- The quote around a key that stands between the quotes of an attribute, or outside of any. -/
def keyQuote : Option QuoteMark → QuoteMark
  | some .double => .single
  | _ => .double

/-- A character of such a key as it is written. -/
def keyPoint (mark : Option QuoteMark) (c : CodePoint) : Text :=
  match mark with
  | none => Json.escapePoint c
  | some .single => if c = '\'' then "\\u0027" else Json.escapePoint c
  | some .double =>
    if c = '"' then "\\u0022" else if c = '\'' then "\\'" else Json.escapePoint c

/-- **A character of a key** stands for itself or is escaped. -/
theorem keyPoint_cases (mark : Option QuoteMark) (c : CodePoint) :
    (keyPoint mark c = [c] ∧ c ≠ (keyQuote mark).point ∧ c ≠ '\\' ∧ c ≠ '\n') ∨
      IsEscape (keyPoint mark c) := by
  rcases mark with _ | _ | _
  · exact escapePoint_cases c
  · rw [keyPoint]
    split_ifs
    · exact .inr (.mk (by decide) (by decide))
    · exact escapePoint_cases c
  · rw [keyPoint]
    split_ifs with hdouble hsingle
    · exact .inr (.mk (by decide) (by decide))
    · exact .inr (.ofSign (by decide))
    · exact (escapePoint_cases c).imp_left fun h => ⟨h.1, hsingle, h.2.2⟩

/-- The quote of the attribute is written for no character. -/
lemma notMem_keyPoint (q : QuoteMark) (c : CodePoint) : q.point ∉ keyPoint (some q) c := by
  rcases q with _ | _
  · rw [keyPoint]
    split_ifs with hsingle
    · decide
    · exact notMem_escapePoint .single hsingle
  · rw [keyPoint]
    split_ifs with hdouble hsingle
    · decide
    · decide
    · exact notMem_escapePoint .double hdouble

/-! ## Keys -/

lemma head?_flatMap_escapePoint (t : Text) : (t.flatMap Json.escapePoint).head? ≠ some '"' := by
  cases t with
  | nil => simp
  | cons c t =>
    rw [flatMap_cons]
    rcases escapePoint_cases c with ⟨hc, hne, -⟩ | hc
    · rw [hc]
      simpa using hne
    · generalize Json.escapePoint c = piece at hc
      obtain ⟨-, -⟩ := hc
      simp

/-- Without its backslash a quote is a quote. -/
lemma replaceAll_escapePoint (t : Text) :
    Text.replaceAll (t.flatMap Json.escapePoint) "\\\"" "\"" =
      t.flatMap fun c => if c = .scalar '"' then [.scalar '"'] else Json.escapePoint c := by
  induction t with
  | nil => rfl
  | cons c t ih =>
    rw [flatMap_cons, flatMap_cons]
    split_ifs with hquote
    · subst hquote
      rw [← ih]
      rfl
    · rw [replaceAll_append_of_notMem (notMem_escapePoint .double hquote)
        (head?_flatMap_escapePoint t), ih]

/-- **A key that is a text** is written character by character. -/
theorem Key.attributeLiteral_name (t : Text) (mark : Option QuoteMark) :
    (Key.name t).attributeLiteral mark =
      (keyQuote mark).point :: t.flatMap (keyPoint mark) ++ [(keyQuote mark).point] := by
  rcases mark with _ | _ | _
  · rfl
  · change Text.replaceAll (Json.quote t) ['\''] "\\u0027" = _
    have hquote : Json.quote t = [.scalar '"'] ++ t.flatMap Json.escapePoint ++ [.scalar '"'] := rfl
    rw [hquote, replaceAll_append, replaceAll_append, replaceAll_flatMap]
    have hpoint : (fun c => (Json.escapePoint c).replaceAll ['\''] "\\u0027") =
        keyPoint (some .single) := by
      funext c
      rw [keyPoint]
      split_ifs with hsingle
      · subst hsingle
        rfl
      · exact replaceAll_of_notMem (notMem_escapePoint .single hsingle) _
    rw [hpoint]
    rfl
  · change "'" ++ Text.replaceAll (Text.replaceAll (Text.replaceAll ((Json.quote t).drop 1).dropLast
      "\\\"" "\"") ['\''] "\\'") ['"'] "\\u0022" ++ "'" = _
    have hinner : ((Json.quote t).drop 1).dropLast = t.flatMap Json.escapePoint := by
      change (t.flatMap Json.escapePoint ++ [CodePoint.scalar '"']).dropLast = _
      rw [dropLast_concat]
    rw [hinner, replaceAll_escapePoint, replaceAll_flatMap, replaceAll_flatMap]
    have hpoint : (fun c => Text.replaceAll (Text.replaceAll
        (if c = .scalar '"' then [.scalar '"'] else Json.escapePoint c) [.scalar '\''] "\\'")
          [.scalar '"'] "\\u0022") = keyPoint (some .double) := by
      funext c
      rw [keyPoint]
      split_ifs with hdouble hsingle
      · rfl
      · subst hsingle
        rfl
      · have hsingle' : .scalar '\'' ∉ Json.escapePoint c := notMem_escapePoint .single hsingle
        have hdouble' : .scalar '"' ∉ Json.escapePoint c := notMem_escapePoint .double hdouble
        rw [replaceAll_of_notMem hsingle', replaceAll_of_notMem hdouble']
    rw [hpoint]
    rfl

/-- The characters of a text can stand in a string literal as they are written. -/
theorem passable_flatMap_keyPoint (mark : Option QuoteMark) (t : Text) :
    Passable (keyQuote mark).point (t.flatMap (keyPoint mark)) := by
  induction t with
  | nil => exact .nil
  | cons c t ih =>
    rw [flatMap_cons]
    rcases keyPoint_cases mark c with ⟨hc, hquote, hslash, hline⟩ | hc
    · rw [hc]
      exact .plain hquote hline hslash ih
    · exact (hc.passable _).append ih

/-- A number is written with digits and perhaps a minus sign. -/
lemma notMem_ofInt (hd : d.isDigit = false) (hminus : d ≠ '-') (n : Int) : .scalar d ∉ Text.ofInt n := by
  have hnat : ∀ m : Nat, .scalar d ∉ Text.ofNat m := by
    intro m hmem
    obtain ⟨e, he, heq⟩ := mem_map.mp hmem
    obtain rfl := CodePoint.scalar.inj heq
    rw [Nat.isDigit_of_mem_toDigits (by decide) (by decide) he] at hd
    cases hd
  cases n with
  | ofNat m => exact hnat m
  | negSucc m =>
    intro hmem
    rcases mem_cons.mp hmem with heq | hmem
    · exact hminus (CodePoint.scalar.inj heq)
    · exact hnat (m + 1) hmem

namespace Key

/-- The quote of the attribute does not stand in the literal. -/
theorem notMem_attributeLiteral (k : Key) (q : QuoteMark) : q.point ∉ k.attributeLiteral (some q) := by
  cases k with
  | number n => cases q <;> exact notMem_ofInt (by decide) (by decide) n
  | name t =>
    rw [attributeLiteral_name]
    intro hmem
    have hne : q.point ≠ (keyQuote (some q)).point := by cases q <;> decide
    simp only [cons_append, mem_cons, mem_append, not_mem_nil, or_false, hne,
      false_or] at hmem
    obtain ⟨c, -, hc⟩ := mem_flatMap.mp hmem
    exact notMem_keyPoint q c hc

/-- **Nothing is added** but the signs of escapes. -/
theorem mem_text_of_mem_attributeLiteral {mark : Option QuoteMark}
    (hd : d ∉ "\"\\'nrtbfu0123456789abcdef".toList) (h : .scalar d ∈ k.attributeLiteral mark) :
    .scalar d ∈ k.text := by
  cases k with
  | number n => exact h
  | name t =>
    rw [attributeLiteral_name] at h
    have hne : .scalar d ≠ (keyQuote mark).point := by
      intro heq
      cases hq : keyQuote mark <;> rw [hq] at heq <;> obtain rfl := CodePoint.scalar.inj heq <;>
        exact hd (by decide)
    simp only [cons_append, mem_cons, mem_append, not_mem_nil, or_false, hne,
      false_or] at h
    obtain ⟨c, hc, hmem⟩ := mem_flatMap.mp h
    rcases keyPoint_cases mark c with ⟨heq, -⟩ | hescape
    · rw [heq, mem_singleton] at hmem
      rwa [hmem]
    · exact absurd hmem (hescape.notMem hd)

end Key

/-- Writing a text character by character makes no pair, if a character is written as itself or does
not stand in what is written. -/
lemma Unpaired.flatMap {piece : CodePoint → Text} (h : Unpaired c t)
    (hpiece : ∀ x, piece x = [x] ∨ piece x ≠ [] ∧ c ∉ piece x) : Unpaired c (t.flatMap piece) := by
  induction t with
  | nil => exact .nil
  | cons x t ih =>
    obtain ⟨hnext, hrest⟩ := isChain_cons.mp h
    rw [flatMap_cons, append_iff]
    refine ⟨?_, ih hrest, ?_⟩
    · rcases hpiece x with hx | hx
      · rw [hx]
        exact List.IsChain.singleton x
      · exact of_notMem hx.2
    · rintro ⟨hlast, hhead⟩
      -- a character that is written as one at an end stands for itself
      have hself : ∀ y, c ∈ piece y → y = c := fun y hy => by
        rcases hpiece y with heq | hno
        · rw [heq, mem_singleton] at hy
          exact hy.symm
        · exact absurd hy hno.2
      have hne : ∀ y, piece y ≠ [] := fun y => by
        rcases hpiece y with heq | hno
        · rw [heq]
          exact cons_ne_nil y []
        · exact hno.1
      cases t with
      | nil => simp at hhead
      | cons y t =>
        rw [flatMap_cons, head?_append_of_ne_nil _ (hne y)] at hhead
        exact hnext y rfl ⟨hself x (mem_of_getLast? hlast), hself y (mem_of_head? hhead)⟩

/-- **No pair is made of a character** that is not one of those of escapes. -/
theorem Key.unpaired_attributeLiteral (mark : Option QuoteMark)
    (hd : d ∉ "\"\\'nrtbfu0123456789abcdef".toList) (h : Unpaired (.scalar d) k.text) :
    Unpaired (.scalar d) (k.attributeLiteral mark) := by
  cases k with
  | number n => exact h
  | name t =>
    have hne : .scalar d ∉ [(keyQuote mark).point] := by
      intro heq
      rw [mem_singleton] at heq
      cases hq : keyQuote mark <;> rw [hq] at heq <;> obtain rfl := CodePoint.scalar.inj heq <;>
        exact hd (by decide)
    have hpieces : Unpaired (.scalar d) (t.flatMap (keyPoint mark)) := by
      refine Unpaired.flatMap h fun x => ?_
      rcases keyPoint_cases mark x with ⟨heq, -⟩ | hescape
      · exact .inl heq
      · refine .inr ⟨?_, hescape.notMem hd⟩
        rintro hnil
        rw [hnil] at hescape
        cases hescape
    rw [attributeLiteral_name]
    exact (Unpaired.notMem_append hne hpieces).append_notMem hne

end Phrasebook
