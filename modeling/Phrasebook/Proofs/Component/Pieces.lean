import Phrasebook.Proofs.Component.Markup

/-!
# Markup as a sequence of pieces

Markup is a sequence of tags, comments and the texts between them. A text has no opening bracket; a
comment ends with the first arrow behind its beginning; a tag ends with the first closing bracket that
does not stand between quotes; and only the last piece may lack its end.

## Main results

* `exists_cut` — every text is such a sequence.
* `markupParts_joined` — the scanner of markup sees these pieces.
-/

namespace Phrasebook

open List Text

variable {pieces : List Piece} {t u : Text} {quote : Option CodePoint}

/-- A piece of markup with its text. -/
inductive Piece where
  | text (t : Text)
  | comment (t : Text)
  | tag (t : Text)
  deriving DecidableEq

/-- The text of a piece. -/
def Piece.content : Piece → Text
  | text t => t
  | comment t => t
  | tag t => t

/-- Whether a piece is text between tags. -/
def Piece.isText : Piece → Bool
  | text _ => true
  | _ => false

/-- The text of several pieces. -/
def joined (pieces : List Piece) : Text := pieces.flatMap Piece.content

@[simp]
lemma joined_nil : joined [] = [] := rfl

@[simp]
lemma joined_cons (piece : Piece) (pieces : List Piece) :
    joined (piece :: pieces) = piece.content ++ joined pieces := rfl

/-- The quote that is open behind a text that goes on in a tag, where `quote` is open before it; none
if the tag is closed in it. -/
def openQuote? (quote : Option CodePoint) : Text → Option (Option CodePoint)
  | [] => some quote
  | c :: rest =>
    match quote with
    | some q => openQuote? (if c == q then none else some q) rest
    | none =>
      if c.isQuote then openQuote? (some c) rest
      else if c.closesTag then none
      else openQuote? none rest

/-- What a comment begins with. -/
def commentOpening : Text := "<!--"

/-- A comment with its end: the first arrow behind its beginning. -/
structure IsComment (t : Text) : Prop where
  opening : t.startsWith commentOpening = true
  closing : Text.findFrom? "-->" t 4 = some (t.length - 3)

/-- **The sequences of pieces that the scanner can see.** -/
inductive IsCut : List Piece → Prop where
  | nil : IsCut []
  /-- Text without opening brackets, up to the next bracket. -/
  | text {t : Text} {rest : List Piece} (hne : t ≠ []) (hopen : ∀ c ∈ t, c ≠ '<')
      (hnext : rest.head?.all fun piece => !piece.isText) (hrest : IsCut rest) :
    IsCut (.text t :: rest)
  | comment {t : Text} {rest : List Piece} (ht : IsComment t) (hrest : IsCut rest) :
    IsCut (.comment t :: rest)
  | openComment {t : Text} (hopening : t.startsWith commentOpening = true)
      (hclosing : Text.findFrom? "-->" t 4 = none) :
    IsCut [.comment t]
  /-- A tag, closed by the first bracket that does not stand between quotes. -/
  | tag {inner : Text} {rest : List Piece} (hinner : openQuote? none inner = some none)
      (hopening : ¬ Text.startsWith (.scalar '<' :: inner ++ [.scalar '>']) commentOpening = true)
      (hrest : IsCut rest) :
    IsCut (.tag (.scalar '<' :: inner ++ [.scalar '>']) :: rest)
  | openTag {inner : Text} (hinner : (openQuote? none inner).isSome)
      (hopening : ¬ Text.startsWith ('<' :: inner) commentOpening = true) :
    IsCut [.tag ('<' :: inner)]

/-- The parts among pieces that begin at an offset. -/
def partsFrom (offset : Nat) : List Piece → List Part
  | [] => []
  | .text t :: rest => .text offset (offset + t.length) :: partsFrom (offset + t.length) rest
  | .comment t :: rest => partsFrom (offset + t.length) rest
  | .tag t :: rest => .tag offset (offset + t.length) :: partsFrom (offset + t.length) rest

/-- The spans of the comments among pieces that begin at an offset. -/
def commentsFrom (offset : Nat) : List Piece → List (Nat × Nat)
  | [] => []
  | .comment t :: rest => (offset, offset + t.length) :: commentsFrom (offset + t.length) rest
  | piece :: rest => commentsFrom (offset + piece.content.length) rest

/-! ## The scanner sees the pieces -/

section Scanner

variable {offset start : Nat}

/-- Text is passed up to a bracket. -/
lemma markupPartsFrom_text (hu : ∀ c ∈ u, c ≠ '<') (r : Text) :
    markupPartsFrom offset (.text start) (u ++ r) =
      markupPartsFrom (offset + u.length) (.text start) r := by
  induction u generalizing offset with
  | nil => rfl
  | cons c u ih =>
    have hc : ¬ (c == '<') := by simpa using hu c mem_cons_self
    rw [cons_append, markupPartsFrom, if_neg hc, ih fun d hd => hu d (mem_cons_of_mem c hd),
      length_cons, Nat.add_right_comm, Nat.add_assoc]

/-- The scanner is at a bracket that opens. -/
lemma markupPartsFrom_open (r : Text) :
    markupPartsFrom offset (.text start) ('<' :: r) =
      textPart start offset ++
        if Text.startsWith ('<' :: r) commentOpening then
          markupPartsFrom (offset + 1) (.comment (commentLength (.scalar '<' :: r) - 1)) r
        else markupPartsFrom (offset + 1) (.tag offset none) r := rfl

/-- A comment is passed up to its end. -/
lemma markupPartsFrom_comment (hu : u ≠ []) (r : Text) :
    markupPartsFrom offset (.comment u.length) (u ++ r) =
      markupPartsFrom (offset + u.length) (.text (offset + u.length)) r := by
  induction u generalizing offset with
  | nil => exact absurd rfl hu
  | cons c u ih =>
    rw [cons_append, markupPartsFrom, length_cons]
    cases u with
    | nil => rfl
    | cons d u =>
      have hmore : ¬ (d :: u).length + 1 ≤ 1 := by simp
      rw [if_neg hmore, Nat.add_sub_cancel, ih (cons_ne_nil d u), Nat.add_right_comm,
        Nat.add_assoc]

/-- The inside of a tag is passed. -/
lemma markupPartsFrom_tag {quote' : Option CodePoint} (hu : openQuote? quote u = some quote') (r : Text) :
    markupPartsFrom offset (.tag start quote) (u ++ r) =
      markupPartsFrom (offset + u.length) (.tag start quote') r := by
  induction u generalizing offset quote with
  | nil =>
    obtain rfl := Option.some.inj hu
    rfl
  | cons c u ih =>
    rw [cons_append, length_cons,
      show offset + (u.length + 1) = offset + 1 + u.length by omega]
    cases quote with
    | some q =>
      rw [openQuote?] at hu
      rw [markupPartsFrom, ih hu]
    | none =>
      rw [openQuote?] at hu
      rw [markupPartsFrom]
      split_ifs at hu with hquote hclose
      · rw [if_pos hquote, ih hu]
      · rw [if_neg hquote, if_neg hclose, ih hu]

/-- A comment is as long as the scanner finds it, whatever follows it. -/
lemma commentLength_append (h : IsComment t) (r : Text) : commentLength (t ++ r) = t.length := by
  have hle := (findFrom?_le h.closing).1
  rw [commentLength, findFrom?_append h.closing r]
  simp only
  omega

/-- At the end of a text, and where a bracket opens, the part before is done. -/
lemma markupPartsFrom_done (h : t = [] ∨ ∃ r, t = .scalar '<' :: r) :
    markupPartsFrom offset (.text start) t =
      textPart start offset ++ markupPartsFrom offset (.text offset) t := by
  have hempty : textPart offset offset = [] := by simp [textPart]
  rcases h with rfl | ⟨r, rfl⟩
  · simp [markupPartsFrom, hempty]
  · simp [markupPartsFrom, hempty]

end Scanner

lemma startsWith_iff {beginning : Text} : t.startsWith beginning ↔ ∃ r, t = beginning ++ r := by
  rw [startsWith, isPrefixOf_iff_prefix]
  exact exists_congr fun r => eq_comm

namespace IsCut

/-- Pieces that do not begin with text begin with a bracket. -/
lemma joined_eq (h : IsCut pieces) (hhead : pieces.head?.all fun piece => !piece.isText) :
    joined pieces = [] ∨ ∃ r, joined pieces = .scalar '<' :: r := by
  cases h with
  | nil => exact .inl rfl
  | text => simp [Piece.isText] at hhead
  | comment ht =>
    obtain ⟨r, rfl⟩ := startsWith_iff.mp ht.opening
    exact .inr ⟨_, rfl⟩
  | openComment hopening =>
    obtain ⟨r, rfl⟩ := startsWith_iff.mp hopening
    exact .inr ⟨_, rfl⟩
  | tag => exact .inr ⟨_, rfl⟩
  | openTag => exact .inr ⟨_, rfl⟩

end IsCut

lemma not_startsWith_tag {inner : Text}
    (h : ¬ Text.startsWith (.scalar '<' :: inner ++ [.scalar '>']) commentOpening) (r : Text) :
    ¬ Text.startsWith (.scalar '<' :: (inner ++ .scalar '>' :: r)) commentOpening := by
  intro hlonger
  obtain ⟨u, hu⟩ := startsWith_iff.mp hlonger
  have hopening : commentOpening = [.scalar '<', .scalar '!', .scalar '-', .scalar '-'] := rfl
  rw [hopening] at hu
  -- the bracket would have to be one of the first four characters
  rcases inner with _ | ⟨a, _ | ⟨b, _ | ⟨c, inner⟩⟩⟩
  · simp at hu
  · simp at hu
  · simp at hu
  · apply h
    rw [startsWith_iff, hopening]
    simp only [cons_append, nil_append, List.cons.injEq] at hu
    obtain ⟨-, rfl, rfl, rfl, -⟩ := hu
    exact ⟨inner ++ [.scalar '>'], by simp⟩

/-- The scanner sees the pieces of a sequence that begins at an offset. -/
lemma markupPartsFrom_joined (h : IsCut pieces) (offset : Nat) :
    markupPartsFrom offset (.text offset) (joined pieces) = partsFrom offset pieces := by
  induction h generalizing offset with
  | nil => simp [markupPartsFrom, textPart, partsFrom]
  | @text t rest hne hopen hnext hrest ih =>
    have hlt : offset < offset + t.length := by
      have := length_pos_iff.mpr hne
      omega
    rw [joined_cons, Piece.content, markupPartsFrom_text hopen,
      markupPartsFrom_done (hrest.joined_eq hnext), ih, partsFrom, textPart, if_pos hlt]
    rfl
  | @comment t rest ht hrest ih =>
    obtain ⟨u, hu⟩ := startsWith_iff.mp ht.opening
    obtain ⟨v, rfl, hv⟩ : ∃ v, t = .scalar '<' :: v ∧ v ≠ [] := ⟨_, hu, by simp⟩
    have hopening : Text.startsWith (.scalar '<' :: (v ++ joined rest)) commentOpening :=
      startsWith_iff.mpr ⟨u ++ joined rest, by
        rw [← cons_append, hu, append_assoc]⟩
    have hlen := commentLength_append ht (joined rest)
    rw [cons_append] at hlen
    rw [joined_cons, Piece.content, cons_append, markupPartsFrom_open, if_pos hopening, hlen, length_cons,
      Nat.add_sub_cancel, markupPartsFrom_comment hv, partsFrom, length_cons,
      show offset + 1 + v.length = offset + (v.length + 1) by omega, ih]
    simp [textPart]
  | @openComment t hopening hclosing =>
    obtain ⟨u, hu⟩ := startsWith_iff.mp hopening
    obtain ⟨v, rfl, hv⟩ : ∃ v, t = .scalar '<' :: v ∧ v ≠ [] := ⟨_, hu, by simp⟩
    have hlen : commentLength (.scalar '<' :: v) = v.length + 1 := by
      rw [commentLength, hclosing]
      rfl
    have hrest : markupPartsFrom (offset + 1) (.comment v.length) v = [] := by
      simpa [markupPartsFrom, textPart] using markupPartsFrom_comment hv []
    rw [joined_cons, Piece.content, joined_nil, append_nil, markupPartsFrom_open,
      if_pos hopening, hlen, Nat.add_sub_cancel, hrest]
    simp [textPart, partsFrom]
  | @tag inner rest hinner hopening hrest ih =>
    have hnot := not_startsWith_tag hopening (joined rest)
    have hshape : joined (.tag (.scalar '<' :: inner ++ [.scalar '>']) :: rest) =
        .scalar '<' :: (inner ++ .scalar '>' :: joined rest) := by simp [Piece.content]
    have hplace : offset + 1 + inner.length + 1 =
        offset + (.scalar '<' :: inner ++ [.scalar '>'] : Text).length := by
      simp only [cons_append, length_cons, length_append, length_nil]
      omega
    rw [hshape, markupPartsFrom_open, if_neg hnot, markupPartsFrom_tag hinner,
      markupPartsFrom, if_neg (by decide), if_pos (by decide), hplace, ih, partsFrom]
    simp [textPart]
  | @openTag inner hinner hopening =>
    obtain ⟨quote, hquote⟩ := Option.isSome_iff_exists.mp hinner
    have hrest : markupPartsFrom (offset + 1) (.tag offset none) inner =
        [.tag offset (offset + 1 + inner.length)] := by
      simpa [markupPartsFrom] using markupPartsFrom_tag hquote []
    rw [joined_cons, Piece.content, joined_nil, append_nil, markupPartsFrom_open,
      if_neg hopening, hrest, partsFrom, length_cons, partsFrom]
    simp only [textPart, lt_irrefl, if_false, nil_append]
    rw [show offset + 1 + inner.length = offset + (inner.length + 1) by omega]

/-- **The scanner sees the pieces** that a text is put together from. -/
theorem markupParts_joined (h : IsCut pieces) : markupParts (joined pieces) = partsFrom 0 pieces :=
  markupPartsFrom_joined h 0

/-! ## Every text is a sequence of pieces -/

/-- A tag that is closed is closed at a bracket that does not stand between quotes. -/
lemma exists_of_openQuote?_eq_none (h : openQuote? quote t = none) :
    ∃ u r, t = u ++ .scalar '>' :: r ∧ openQuote? quote u = some none := by
  induction t generalizing quote with
  | nil => simp [openQuote?] at h
  | cons c t ih =>
    cases quote with
    | some q =>
      rw [openQuote?] at h
      obtain ⟨u, r, rfl, hu⟩ := ih h
      exact ⟨c :: u, r, rfl, by rwa [openQuote?]⟩
    | none =>
      rw [openQuote?] at h
      split_ifs at h with hquote hclose
      · obtain ⟨u, r, rfl, hu⟩ := ih h
        exact ⟨c :: u, r, rfl, by rw [openQuote?, if_pos hquote, hu]⟩
      · obtain rfl : c = .scalar '>' := by simpa [CodePoint.closesTag] using hclose
        exact ⟨[], t, rfl, rfl⟩
      · obtain ⟨u, r, rfl, hu⟩ := ih h
        exact ⟨c :: u, r, rfl, by rw [openQuote?, if_neg hquote, if_neg hclose, hu]⟩

/-- Text up to the next bracket, in front of other pieces. -/
lemma IsCut.cons_text (h : IsCut pieces) (hne : t ≠ []) (hopen : ∀ c ∈ t, c ≠ .scalar '<')
    (hnext : joined pieces = [] ∨ ∃ r, joined pieces = .scalar '<' :: r) : IsCut (.text t :: pieces) := by
  refine .text hne hopen ?_ h
  cases h with
  | @text u rest hne' hopen' _ _ =>
    -- two texts do not follow each other
    exfalso
    obtain ⟨c, u, rfl⟩ := exists_cons_of_ne_nil hne'
    rcases hnext with hnil | ⟨r, hr⟩
    · simp [Piece.content] at hnil
    · have hc := hopen' c mem_cons_self
      simp only [joined_cons, Piece.content, cons_append, List.cons.injEq] at hr
      exact hc hr.1
  | _ => rfl

/-- **Every text is a sequence of pieces.** -/
theorem exists_cut (t : Text) : ∃ pieces, IsCut pieces ∧ joined pieces = t := by
  induction hn : t.length using Nat.strong_induction_on generalizing t with
  | _ n ih =>
    have hshorter : ∀ u : Text, u.length < t.length → ∃ pieces, IsCut pieces ∧ joined pieces = u :=
      fun u hu => ih u.length (by omega) u rfl
    cases t with
    | nil => exact ⟨[], .nil, rfl⟩
    | cons c rest =>
      by_cases hc : c = '<'
      · subst hc
        by_cases hopening : Text.startsWith ('<' :: rest) commentOpening
        · cases hclose : Text.findFrom? "-->" ('<' :: rest) 4 with
          | none => exact ⟨_, .openComment hopening hclose, by simp [Piece.content]⟩
          | some close =>
            set t : Text := '<' :: rest with ht
            have hend := findFrom?_le hclose
            have hend' : 4 ≤ close ∧ close + 3 ≤ t.length := hend
            obtain ⟨pieces, hcut, hjoined⟩ := hshorter (t.drop (close + 3)) (by
              rw [length_drop]
              omega)
            have hlen : (t.take (close + 3)).length = close + 3 :=
              length_take_of_le hend'.2
            have hcomment : IsComment (t.take (close + 3)) := by
              refine ⟨?_, ?_⟩
              · rw [Text.startsWith, isPrefixOf_iff_prefix] at hopening ⊢
                exact prefix_take_iff.mpr ⟨hopening, by
                  show 4 ≤ close + 3
                  omega⟩
              · rw [hlen]
                exact findFrom?_take hclose (le_refl _)
            refine ⟨_, .comment hcomment hcut, ?_⟩
            rw [joined_cons, Piece.content, hjoined, take_append_drop]
        · cases hquote : openQuote? none rest with
          | some quote =>
            exact ⟨_, .openTag (by rw [hquote]; rfl) hopening, by simp [Piece.content]⟩
          | none =>
            obtain ⟨u, r, rfl, hu⟩ := exists_of_openQuote?_eq_none hquote
            obtain ⟨pieces, hcut, rfl⟩ := hshorter r (by
              simp only [length_cons, length_append]
              omega)
            refine ⟨_, .tag hu ?_ hcut, by simp [Piece.content]⟩
            intro hshort
            apply hopening
            obtain ⟨v, hv⟩ := startsWith_iff.mp hshort
            refine startsWith_iff.mpr ⟨v ++ joined pieces, ?_⟩
            rw [← append_assoc, ← hv]
            simp
      · have hne : (c :: rest).takeWhile (fun d => d != .scalar '<') ≠ [] := by simp [hc]
        have hsplit := takeWhile_append_dropWhile (p := fun d => d != .scalar '<') (l := c :: rest)
        set u := (c :: rest).takeWhile fun d => d != .scalar '<' with hu
        set r := (c :: rest).dropWhile fun d => d != .scalar '<' with hr
        obtain ⟨pieces, hcut, hjoined⟩ := hshorter r (by
          have hlen := congrArg List.length hsplit
          have hpos := length_pos_iff.mpr hne
          rw [length_append] at hlen
          omega)
        refine ⟨.text u :: pieces, hcut.cons_text hne (fun d hd => ?_) ?_, ?_⟩
        · simpa using mem_takeWhile_imp hd
        · rw [hjoined]
          cases hcase : r with
          | nil => exact .inl rfl
          | cons d r' =>
            have hstop := head?_dropWhile_not (fun d : CodePoint => d != '<') (c :: rest)
            rw [← hr, hcase] at hstop
            exact .inr ⟨r', by simpa using hstop⟩
        · rw [joined_cons, Piece.content, hjoined, hsplit]

end Phrasebook
