import Phrasebook.Options.CustomImport
import Phrasebook.Proofs.Pattern.Takes
import Phrasebook.Proofs.Text.Blank

/-!
# The grammar of import statements

The import statement of a caller is matched with patterns: one for the statement, and one for each form of
the clause in it. What is read in this way is exactly a grammar that says nothing about an order of
reading: an import statement is a sequence of words, identifiers, white space and signs. Words of the
grammar can be identifiers as well, and a pattern can match in many ways, and yet a statement has one
reading.

## Main results

* `CustomImport.ClauseText.unique`, `CustomImport.IsFramed.unique` — clauses and statements have one reading.
* `CustomImport.ofClause?_eq_some_iff` — a clause is read in the one form that it has.
* `CustomImport.parse?_eq_some_iff` — statements are read exactly as the grammar has them.
-/

namespace Phrasebook

open List Option Text

variable {c : CustomImport} {kind : ImportKind} {newName : Option Text} {clause name rest statement t : Text}

/-! ## White space -/

/-- White space, and at least one character of it. -/
def Text.IsGap (t : Text) : Prop := t ≠ [] ∧ t.IsBlank

/-- A gap begins with white space. -/
lemma Text.IsGap.isBlank_of_mem_head? {g : Text} (h : g.IsGap) {r : Text} :
    ∀ c ∈ (g ++ r).head?, c.isBlank := by
  obtain ⟨d, u, rfl⟩ := exists_cons_of_ne_nil h.1
  exact fun c hc => some.inj hc ▸ h.2 d mem_cons_self

/-- A text that does not begin with white space. -/
def Text.StartsInked (t : Text) : Prop := ∀ c ∈ t.head?, c.isBlank = false

lemma Text.StartsInked.append (h : t.StartsInked) (hne : t ≠ []) (r : Text) : Text.StartsInked (t ++ r) := by
  obtain ⟨c, u, rfl⟩ := exists_cons_of_ne_nil hne
  exact h

/-- What is left of a text without a run at its beginning. -/
lemma dropWhile_eq_iff {p : CodePoint → Bool} : t.dropWhile p = rest ↔
    (∃ u, (∀ c ∈ u, p c) ∧ t = u ++ rest) ∧ ∀ c ∈ rest.head?, p c = false := by
  constructor
  · rintro rfl
    refine ⟨⟨t.takeWhile p, fun c => mem_takeWhile_imp, takeWhile_append_dropWhile.symm⟩, ?_⟩
    intro c hc
    have hhead := head?_dropWhile_not p t
    rwa [hc] at hhead
  · rintro ⟨⟨u, hu, rfl⟩, hrest⟩
    rw [dropWhile_append_of_pos hu]
    cases rest with
    | nil => rfl
    | cons c rest => rw [dropWhile_cons_of_neg (by simp [hrest c rfl])]

/-- A text is a run, and what begins where the run ends. -/
lemma takeWhile_run (p : CodePoint → Bool) (t : Text) :
    t = t.takeWhile p ++ t.drop (t.takeWhile p).length ∧ (∀ c ∈ t.takeWhile p, p c) ∧
      ∀ c ∈ (t.drop (t.takeWhile p).length).head?, p c = false := by
  have hdrop := congrArg (List.drop (t.takeWhile p).length) (takeWhile_append_dropWhile (p := p) (l := t))
  rw [drop_left] at hdrop
  rw [← hdrop]
  exact ⟨takeWhile_append_dropWhile.symm, fun c => mem_takeWhile_imp, (dropWhile_eq_iff.mp rfl).2⟩

lemma dropBlanks_eq_iff : t.dropWhile CodePoint.isBlank = rest ↔
    (∃ b : Text, b.IsBlank ∧ t = b ++ rest) ∧ rest.StartsInked := dropWhile_eq_iff

/-- A text without white space at its end. -/
lemma trimRight_eq_iff : t.trimRight = rest ↔
    (∃ b : Text, b.IsBlank ∧ t = rest ++ b) ∧ Text.StartsInked rest.reverse := by
  rw [Text.trimRight, Text.trimRightWhile, reverse_eq_iff, dropBlanks_eq_iff]
  refine and_congr_left fun _ => ⟨?_, ?_⟩
  · rintro ⟨b, hb, ht⟩
    refine ⟨b.reverse, fun c hc => hb c (mem_reverse.mp hc), ?_⟩
    rw [← reverse_reverse t, ht, reverse_append, reverse_reverse]
  · rintro ⟨b, hb, rfl⟩
    exact ⟨b.reverse, fun c hc => hb c (mem_reverse.mp hc), reverse_append⟩

/-- A text without white space around it. -/
lemma trim_eq_iff : t.trim = rest ↔
    (∃ b b' : Text, b.IsBlank ∧ b'.IsBlank ∧ t = b ++ (rest ++ b')) ∧ rest.StartsInked ∧
      Text.StartsInked rest.reverse := by
  constructor
  · intro h
    obtain ⟨⟨b, hb, ht⟩, hinked⟩ := dropBlanks_eq_iff.mp (rfl : t.dropWhile CodePoint.isBlank = _)
    obtain ⟨⟨b', hb', hrest⟩, hend⟩ := trimRight_eq_iff.mp h
    refine ⟨⟨b, b', hb, hb', hrest ▸ ht⟩, fun c hc => hinked c ?_, hend⟩
    rw [hrest, head?_append, hc]
    rfl
  · rintro ⟨⟨b, b', hb, hb', rfl⟩, hinked, hend⟩
    by_cases hne : rest = []
    · subst hne
      have hdrop : (b ++ ([] ++ b')).dropWhile CodePoint.isBlank = [] :=
        dropBlanks_eq_iff.mpr ⟨⟨b ++ b', hb.append hb', (append_nil _).symm⟩, nofun⟩
      rw [Text.trim, Text.trimWhile, hdrop]
      rfl
    · have hdrop : (b ++ (rest ++ b')).dropWhile CodePoint.isBlank = rest ++ b' :=
        dropBlanks_eq_iff.mpr ⟨⟨b, hb, rfl⟩, hinked.append hne b'⟩
      rw [Text.trim, Text.trimWhile, hdrop]
      exact trimRight_eq_iff.mpr ⟨⟨b', hb', rfl⟩, hend⟩

/-- A run ends in one place: two runs at the beginning of one text are the same, if neither goes on. -/
lemma append_inj_of_run {p : CodePoint → Bool} {u u' r r' : Text} (hu : ∀ c ∈ u, p c) (hu' : ∀ c ∈ u', p c)
    (hr : ∀ c ∈ r.head?, p c = false) (hr' : ∀ c ∈ r'.head?, p c = false) (h : u ++ r = u' ++ r') :
    u = u' ∧ r = r' := by
  have hrun := congrArg (takeWhile p) h
  rw [takeWhile_append_of_head hu hr, takeWhile_append_of_head hu' hr'] at hrun
  subst hrun
  exact ⟨rfl, append_cancel_left h⟩

/-! ## Identifiers -/

/-- The identifier that a text begins with, and what follows it. -/
def takeIdentifier? (t : Text) : Option (Text × Text) :=
  match t with
  | [] => none
  | c :: rest =>
    if c.isIdentifierStart then
      let tail := rest.takeWhile CodePoint.isIdentifierPart
      some (c :: tail, rest.drop tail.length)
    else none

/-- Whether a text is an identifier. -/
def isIdentifier (t : Text) : Bool :=
  match takeIdentifier? t with
  | some (_, []) => true
  | _ => false

/-- An identifier: a character that can begin one, and characters that it can go on with. -/
def IsIdentifier (t : Text) : Prop :=
  ∃ c u, t = c :: u ∧ c.isIdentifierStart = true ∧ ∀ d ∈ u, d.isIdentifierPart = true

/-- **An identifier ends where something else begins.** -/
theorem takeIdentifier?_eq_some_iff : takeIdentifier? t = some (name, rest) ↔
    t = name ++ rest ∧ IsIdentifier name ∧ ∀ c ∈ rest.head?, c.isIdentifierPart = false := by
  constructor
  · intro h
    cases t with
    | nil => cases h
    | cons c t =>
      simp only [takeIdentifier?] at h
      split_ifs at h with hstart
      obtain ⟨rfl, rfl⟩ := Prod.mk.inj (some.inj h)
      obtain ⟨ht, hu, hrest⟩ := takeWhile_run CodePoint.isIdentifierPart t
      exact ⟨congrArg (c :: ·) ht, ⟨c, _, rfl, hstart, hu⟩, hrest⟩
  · rintro ⟨rfl, ⟨c, u, rfl, hstart, hu⟩, hrest⟩
    simp only [takeIdentifier?, cons_append, hstart, if_true, takeWhile_append_of_head hu hrest,
      drop_left]

/-- An identifier that a text begins with is the same however it is found. -/
lemma IsIdentifier.append_inj {name' rest' : Text} (h : IsIdentifier name) (h' : IsIdentifier name')
    (hrest : ∀ c ∈ rest.head?, c.isIdentifierPart = false)
    (hrest' : ∀ c ∈ rest'.head?, c.isIdentifierPart = false) (heq : name ++ rest = name' ++ rest') :
    name = name' ∧ rest = rest' := by
  have hfound := takeIdentifier?_eq_some_iff.mpr ⟨rfl, h, hrest⟩
  rw [heq, takeIdentifier?_eq_some_iff.mpr ⟨rfl, h', hrest'⟩] at hfound
  exact (Prod.mk.inj (some.inj hfound)).imp Eq.symm Eq.symm

lemma IsIdentifier.takeIdentifier?_eq (h : IsIdentifier t) : takeIdentifier? t = some (t, []) :=
  takeIdentifier?_eq_some_iff.mpr ⟨(append_nil t).symm, h, by simp⟩

lemma isIdentifier_iff : isIdentifier t ↔ IsIdentifier t := by
  rw [isIdentifier]
  constructor
  · intro h
    split at h
    · rename_i name htake
      obtain ⟨rfl, hname, -⟩ := takeIdentifier?_eq_some_iff.mp htake
      rwa [append_nil]
    · cases h
  · intro h
    rw [h.takeIdentifier?_eq]

/-- No white space stands in an identifier. -/
lemma isIdentifierPart_of_isBlank {c : CodePoint} (h : c.isBlank) :
    c.isIdentifierStart = false ∧ c.isIdentifierPart = false := by
  have happart : ∀ r ∈ blankRanges, (∀ s ∈ alphanumericRanges, r.2 < s.1 ∨ s.2 < r.1) ∧
      (r.2 < 0x24 ∨ 0x7A < r.1) := by decide +kernel
  obtain ⟨r, hr, hin⟩ := any_eq_true.mp h
  simp only [Bool.and_eq_true, decide_eq_true_eq] at hin
  obtain ⟨hletters, hascii⟩ := happart r hr
  have hne : ∀ d : Char, 0x24 ≤ d.toNat → d.toNat ≤ 0x7A → (c == .scalar d) = false := by
    intro d hlow hhigh
    rw [beq_eq_false_iff_ne]
    rintro rfl
    have hnumber : (CodePoint.scalar d).toNat = d.toNat := rfl
    omega
  have hstart : c.isAsciiLetter = false := by
    simp only [CodePoint.isAsciiLetter, Bool.or_eq_false_iff, Bool.and_eq_false_iff, decide_eq_false_iff_not]
    omega
  have halpha : c.isAlphanumeric = false := by
    rw [CodePoint.isAlphanumeric]
    split_ifs
    · simp only [hstart, Bool.false_or, CodePoint.isAsciiDigit, Bool.and_eq_false_iff, decide_eq_false_iff_not]
      omega
    · rw [Bool.eq_false_iff]
      intro hletter
      obtain ⟨s, hs, hin'⟩ := any_eq_true.mp hletter
      simp only [Bool.and_eq_true, decide_eq_true_eq] at hin'
      have hbeside := hletters s hs
      omega
  simp only [CodePoint.isIdentifierStart, CodePoint.isIdentifierPart, CodePoint.isWord, hstart, halpha,
    hne '_' (by decide) (by decide), hne '$' (by decide) (by decide), Bool.or_self, and_self]

lemma IsIdentifier.ne_nil (h : IsIdentifier t) : t ≠ [] := by
  obtain ⟨c, u, rfl, -⟩ := h
  exact cons_ne_nil c u

lemma IsIdentifier.notMem (h : IsIdentifier t) {c : CodePoint}
    (hc : c.isIdentifierStart = false ∧ c.isIdentifierPart = false) : c ∉ t := by
  obtain ⟨d, u, rfl, hstart, hu⟩ := h
  intro hmem
  rcases mem_cons.mp hmem with rfl | hmem
  · simp [hc.1] at hstart
  · exact absurd (hu c hmem) (by simp [hc.2])

lemma IsIdentifier.isBlank_of_mem (h : IsIdentifier t) : ∀ c ∈ t, c.isBlank = false :=
  fun _ hc => Bool.eq_false_iff.mpr fun hblank => h.notMem (isIdentifierPart_of_isBlank hblank) hc

lemma IsIdentifier.startsInked (h : IsIdentifier t) (r : Text) : Text.StartsInked (t ++ r) := by
  obtain ⟨c, u, rfl, -⟩ := id h
  exact fun d hd => h.isBlank_of_mem d (some.inj hd ▸ mem_cons_self)

namespace CustomImport

/-! ## The grammar -/

/-- What may follow a name in braces: nothing, or the name under which it is to be known. -/
inductive AliasText : Text → Option Text → Prop where
  | none : AliasText [] none
  | some {g g' name : Text} : g.IsGap → g'.IsGap → IsIdentifier name →
    AliasText (g ++ ("as" ++ (g' ++ name))) (some name)

/-- `ClauseText t kind name newName`: the text `t` is a clause that imports `name` in some way, and may
give it another name. -/
inductive ClauseText : Text → ImportKind → Text → Option Text → Prop where
  | default {name : Text} : IsIdentifier name → ClauseText name .default name none
  | star {b g name : Text} : b.IsBlank → g.IsGap → IsIdentifier name →
    ClauseText ("*" ++ (b ++ ("as" ++ (g ++ name)))) .star name none
  /-- One name in braces, with or without a comma behind it. -/
  | named {b name other b' comma b'' : Text} {newName : Option Text} : b.IsBlank → IsIdentifier name →
    AliasText other newName → b'.IsBlank → (comma = [] ∨ comma = ",") → b''.IsBlank →
    ClauseText ("\x7b" ++ (b ++ (name ++ (other ++ (b' ++ (comma ++ (b'' ++ "\x7d"))))))) .named name newName

/-- `Spells statement c`: the text `statement` is an import statement that binds one name, and `c` is what
it says. -/
inductive Spells (statement : Text) : CustomImport → Prop where
  | mk {b g clause g' g'' source b' semicolon b'' name : Text} {quote : CodePoint} {kind : ImportKind}
      {newName : Option Text} (hbefore : b.IsBlank) (hgap : g.IsGap)
      (hclause : ClauseText clause kind name newName) (hfrom : g'.IsGap) (hmodule : g''.IsGap)
      (hquote : quote = '\'' ∨ quote = '"') (hne : source ≠ [])
      (hsource : ∀ c ∈ source, c ≠ .scalar '\'' ∧ c ≠ .scalar '"') (hend : b'.IsBlank)
      (hsemicolon : semicolon = [] ∨ semicolon = ";") (hafter : b''.IsBlank)
      (heq : statement = b ++ ("import" ++ (g ++ (clause ++ (g' ++ ("from" ++ (g'' ++
        quote :: (source ++ quote :: (b' ++ (semicolon ++ b'')))))))))) :
    Spells statement ⟨statement.trim, source, kind, name, newName⟩

/-- A text that begins with a character other than white space. -/
lemma startsInked_cons {c : CodePoint} (h : c.isBlank = false) (t : Text) : Text.StartsInked (c :: t) :=
  fun _ hd => some.inj hd ▸ h

/-- Nothing behind the names could belong to them. -/
lemma isIdentifierPart_of_mem_closing {b comma b' : Text} (hb : b.IsBlank)
    (hcomma : comma = [] ∨ comma = ",") (hb' : b'.IsBlank) :
    ∀ c ∈ b ++ (comma ++ (b' ++ Text.ofString "\x7d")), c.isIdentifierPart = false := by
  have hsigns : ∀ c ∈ Text.ofString ",\x7d", c.isIdentifierPart = false := by decide +kernel
  intro c hc
  simp only [mem_append] at hc
  rcases hc with hc | hc | hc | hc
  · exact (isIdentifierPart_of_isBlank (hb c hc)).2
  · rcases hcomma with rfl | rfl
    · cases hc
    · exact hsigns c (by simp_all [Text.ofString])
  · exact (isIdentifierPart_of_isBlank (hb' c hc)).2
  · exact hsigns c (by simp_all [Text.ofString])

/-- The first character of a clause tells its form. -/
lemma ClauseText.kind_eq (h : ClauseText clause kind name newName) :
    kind = if clause.head? = some (.scalar '\x7b') then .named
      else if clause.head? = some (.scalar '*') then .star else .default := by
  cases h with
  | default hname =>
    obtain ⟨c, u, rfl, hstart, -⟩ := hname
    have hne : ∀ d : CodePoint, d.isIdentifierStart = false → (c :: u).head? ≠ some d := by
      rintro d hd heq
      rw [some.inj heq, hd] at hstart
      cases hstart
    rw [if_neg (hne _ (by decide)), if_neg (hne _ (by decide))]
  | star => rfl
  | named => rfl

/-- A clause has no white space around it. -/
lemma ClauseText.inked (h : ClauseText clause kind name newName) :
    clause ≠ [] ∧ clause.StartsInked ∧ Text.StartsInked clause.reverse := by
  have hends : ∀ {t : Text} (u : Text), IsIdentifier t → Text.StartsInked (u ++ t).reverse := by
    intro t u ht
    rw [reverse_append]
    refine .append (fun c hc => ht.isBlank_of_mem c ?_) (reverse_ne_nil_iff.mpr ht.ne_nil) _
    exact mem_reverse.mp (mem_of_head? hc)
  cases h with
  | default hname =>
    refine ⟨hname.ne_nil, ?_, hends [] hname⟩
    simpa using hname.startsInked []
  | @star b g _ hb hg hname =>
    refine ⟨cons_ne_nil _ _, startsInked_cons (by decide) _, ?_⟩
    simpa only [append_assoc] using hends ("*" ++ (b ++ ("as" ++ g))) hname
  | @named b _ other b' comma b'' _ hb hname hother hb' hcomma hb'' =>
    refine ⟨cons_ne_nil _ _, startsInked_cons (by decide) _, ?_⟩
    simp only [← append_assoc]
    rw [reverse_append]
    exact startsInked_cons (by decide) _

/-! ## One reading -/

/-- An alias has one reading, where nothing follows that could stand in a name. -/
lemma AliasText.unique {other other' closing closing' : Text} {newName' : Option Text}
    (h : AliasText other newName) (h' : AliasText other' newName')
    (hclosing : ∀ c ∈ closing, c.isIdentifierPart = false)
    (hclosing' : ∀ c ∈ closing', c.isIdentifierPart = false) (heq : other ++ closing = other' ++ closing') :
    newName = newName' := by
  have hletter : (CodePoint.scalar 'a').isIdentifierPart = true := by decide +kernel
  have hinked : ∀ r : Text, Text.StartsInked ("as" ++ r) := startsInked_cons (by decide)
  cases h with
  | none =>
    cases h' with
    | none => rfl
    | some =>
      rw [hclosing 'a' (by rw [nil_append] at heq; rw [heq]; simp [Text.ofString])] at hletter
      cases hletter
  | @some g₁ g₂ name hg₁ hg₂ hname =>
    cases h' with
    | none =>
      rw [ hclosing' 'a' (by rw [nil_append] at heq; rw [← heq]; simp [Text.ofString])] at hletter
      cases hletter
    | @some g₁' g₂' name' hg₁' hg₂' hname' =>
      simp only [append_assoc] at heq
      obtain ⟨-, heq⟩ := append_inj_of_run hg₁.2 hg₁'.2 (hinked _) (hinked _) heq
      obtain ⟨-, heq⟩ := append_inj_of_run hg₂.2 hg₂'.2 (hname.startsInked _) (hname'.startsInked _)
        (append_cancel_left heq)
      rw [(hname.append_inj hname' (fun c hc => hclosing c (mem_of_head? hc))
        (fun c hc => hclosing' c (mem_of_head? hc)) heq).1]

/-- What follows a name does not go on with it. -/
lemma AliasText.isIdentifierPart_of_mem_head? {other closing : Text} (h : AliasText other newName)
    (hclosing : ∀ c ∈ closing, c.isIdentifierPart = false) :
    ∀ c ∈ (other ++ closing).head?, c.isIdentifierPart = false := by
  intro c hc
  cases h with
  | none => exact hclosing c (mem_of_head? hc)
  | some hg _ _ =>
    rw [append_assoc] at hc
    exact (isIdentifierPart_of_isBlank (hg.isBlank_of_mem_head? c hc)).2

/-- **A clause has one reading.** -/
theorem ClauseText.unique {clause' name' : Text} {kind' : ImportKind} {newName' : Option Text}
    (h : ClauseText clause kind name newName) (h' : ClauseText clause' kind' name' newName')
    (heq : clause = clause') : kind = kind' ∧ name = name' ∧ newName = newName' := by
  obtain rfl : kind = kind' := by rw [h.kind_eq, h'.kind_eq, heq]
  refine ⟨rfl, ?_⟩
  cases h with
  | default =>
    cases h' with
    | default => exact ⟨heq, rfl⟩
  | star hb hg hname =>
    cases h' with
    | star hb' hg' hname' =>
      have hinked : ∀ r : Text, Text.StartsInked ("as" ++ r) := startsInked_cons (by decide)
      obtain ⟨-, heq⟩ := append_inj_of_run hb hb' (hinked _) (hinked _) (append_cancel_left heq)
      have hstarts := hname.startsInked []
      have hstarts' := hname'.startsInked []
      rw [append_nil] at hstarts hstarts'
      exact ⟨(append_inj_of_run hg.2 hg'.2 hstarts hstarts' (append_cancel_left heq)).2, rfl⟩
  | named hb hname hother hend hcomma hafter =>
    cases h' with
    | named hb' hname' hother' hend' hcomma' hafter' =>
      have hclosing := isIdentifierPart_of_mem_closing hend hcomma hafter
      have hclosing' := isIdentifierPart_of_mem_closing hend' hcomma' hafter'
      obtain ⟨-, heq⟩ := append_inj_of_run hb hb' (hname.startsInked _) (hname'.startsInked _)
        (append_cancel_left heq)
      obtain ⟨rfl, hrest⟩ := hname.append_inj hname' (hother.isIdentifierPart_of_mem_head? hclosing)
        (hother'.isIdentifierPart_of_mem_head? hclosing') heq
      exact ⟨rfl, hother.unique hother' hclosing hclosing' hrest⟩

/-! ## The patterns -/

section Patterns

open Pattern

/-- White space. -/
def blankSet : CharSet := ⟨false, .counts, [.kind .blank false true]⟩

/-- What can begin an identifier. -/
def startSet : CharSet := ⟨false, .counts, [.range 65 90, .range 97 122, .range 95 95, .range 36 36]⟩

/-- What an identifier can go on with. -/
def partSet : CharSet := ⟨false, .counts, [.kind .word false true, .range 36 36]⟩

/-- The quotes, or, if `negated`, everything else. -/
def quoteSet (negated : Bool) : CharSet := ⟨negated, .counts, [.range 39 39, .range 34 34]⟩

/-- A run of white space of some length at least. -/
def blanks (least : Nat) : Pattern := times .greedy least none (one blankSet)

/-- An identifier. -/
def identifier : Pattern := seq (one startSet) (times .greedy 0 none (one partSet))

/-- A run of characters without quotes. -/
def unquoted (greed : Greed) : Pattern := times greed 1 none (one (quoteSet true))

/-- A sign that may be missing. -/
def sign (c : CodePoint) : Pattern := times .greedy 0 (some 1) (one (.single .counts c.toNat))

/-- What may follow the names in a clause with braces. -/
def closing : List Pattern := blanks 0 :: sign ',' :: blanks 0 :: (ofWord "\x7d" ++ [place .lastLineEnd])

/-- The pattern of statements, as it is parsed. -/
lemma importPattern_eq : importPattern = ofList (place .textStart :: blanks 0 :: (ofWord "import" ++
    (blanks 1 :: group 1 (unquoted .lazy) :: blanks 1 :: (ofWord "from" ++
      [blanks 1, group 2 (one (quoteSet false)), group 3 (unquoted .greedy), again 2 .counts (1, some 1),
        blanks 0, sign ';', blanks 0, place .lastLineEnd])))) := by
  decide +kernel

/-- That of clauses with braces. -/
lemma namedClausePattern_eq : namedClausePattern = ofList (place .textStart :: (ofWord "\x7b" ++ (blanks 0 ::
    group 1 identifier ::
    times .greedy 0 (some 1) (ofList (blanks 1 :: (ofWord "as" ++ [blanks 1, group 2 identifier]))) ::
    closing))) := by
  decide +kernel

/-- That of clauses for a whole module. -/
lemma starClausePattern_eq : starClausePattern = ofList (place .textStart :: (ofWord "*" ++ (blanks 0 ::
    (ofWord "as" ++ [blanks 1, group 1 identifier, place .lastLineEnd])))) := by
  decide +kernel

/-- That of identifiers. -/
lemma identifierPattern_eq : identifierPattern = ofList [place .textStart, one startSet,
    times .greedy 0 none (one partSet), place .lastLineEnd] := by
  decide +kernel

lemma blankSet_holds (c : CodePoint) : blankSet.holds c ↔ c.isBlank := by
  simp [CharSet.holds, blankSet, SetItem.holds, CharKind.holds, CaseRule.lower]

lemma eq_scalar_iff {c : CodePoint} {d : Char} : c = .scalar d ↔ c.toNat = d.toNat :=
  ⟨fun h => h ▸ rfl, fun h => CodePoint.eq_of_toNat_eq h⟩

lemma startSet_holds (c : CodePoint) : startSet.holds c ↔ c.isIdentifierStart := by
  simp [CharSet.holds, startSet, SetItem.holds, CaseRule.variants, CodePoint.isIdentifierStart,
    CodePoint.isAsciiLetter, eq_scalar_iff]
  omega

lemma partSet_holds (c : CodePoint) : partSet.holds c ↔ c.isIdentifierPart := by
  have hdollar : 36 ≤ c.toNat ∧ c.toNat ≤ 36 ↔ c = '$' := by
    rw [eq_scalar_iff]
    exact ⟨fun h => le_antisymm h.2 h.1, fun h => ⟨h.ge, h.le⟩⟩
  simp [CharSet.holds, partSet, SetItem.holds, CaseRule.variants, CodePoint.isIdentifierPart,
    CharKind.holds, CaseRule.lower, hdollar]

lemma quoteSet_holds (c : CodePoint) (negated : Bool) : (quoteSet negated).holds c ↔
    ((c = '\'' ∨ c = '"') ↔ negated = false) := by
  have hquotes : ((quoteSet false).holds c ↔ c = '\'' ∨ c = '"') := by
    simp [CharSet.holds, quoteSet, SetItem.holds, CaseRule.variants, eq_scalar_iff]
    omega
  have hnot : (quoteSet true).holds c = !(quoteSet false).holds c := by simp [CharSet.holds, quoteSet]
  cases negated with
  | false => simp [hquotes]
  | true => simp [hnot, ← hquotes]

lemma takes_blanks : (blanks 0).Takes Text.IsBlank :=
  (Takes.run (by decide) 0).congr fun w => by simp [blankSet_holds, Text.IsBlank]

lemma takes_gap : (blanks 1).Takes Text.IsGap :=
  (Takes.run (by decide) 1).congr fun w => by
    simp [blankSet_holds, Text.IsBlank, Text.IsGap, Nat.one_le_iff_ne_zero]

lemma takes_parts : (times .greedy 0 none (one partSet)).Takes fun w => ∀ c ∈ w, c.isIdentifierPart :=
  (Takes.run (by decide) 0).congr fun w => by simp [partSet_holds]

lemma takes_identifier : identifier.Takes IsIdentifier :=
  (Takes.one.seq takes_parts).congr fun w => by
    simp only [startSet_holds, IsIdentifier]
    constructor
    · rintro ⟨_, u, ⟨c, rfl, hc⟩, hu, rfl⟩
      exact ⟨c, u, rfl, hc, hu⟩
    · rintro ⟨c, u, rfl, hc, hu⟩
      exact ⟨[c], u, ⟨c, rfl, hc⟩, hu, rfl⟩

lemma takes_unquoted {greed : Greed} (hgreed : greed ≠ .possessive) : (unquoted greed).Takes fun w =>
    w ≠ [] ∧ ∀ c ∈ w, c ≠ '\'' ∧ c ≠ '"' :=
  (Takes.run hgreed 1).congr fun w => by simp [quoteSet_holds, Nat.one_le_iff_ne_zero]

lemma takes_quote : (one (quoteSet false)).Takes fun w => ∃ c, w = [c] ∧ (c = '\'' ∨ c = '"') :=
  Takes.one.congr fun w => by simp [quoteSet_holds]

lemma takes_sign (c : CodePoint) : (sign c).Takes fun w => w = [] ∨ w = [c] :=
  Takes.one.option.congr fun w => by simp [CharSet.single_holds_iff]

/-- What is left at the end of a text that has been matched is white space. -/
lemma isBlank_of_isAt {u r : Text} {parts : List (Nat × Nat × Nat)}
    (h : (Head.between u r parts).isAt .lastLineEnd) : r.IsBlank := by
  rcases Bool.or_eq_true_iff.mp h with h | h
  · obtain rfl := List.isEmpty_iff.mp h
    exact isBlank_nil
  · obtain rfl : r = ['\n'] := eq_of_beq h
    exact fun c hc => mem_singleton.mp hc ▸ rfl

/-- Nothing is left at the end of a text that does not end with white space. -/
lemma eq_nil_of_isAt {u r : Text} {parts : List (Nat × Nat × Nat)}
    (h : (Head.between u r parts).isAt .lastLineEnd) (hend : Text.StartsInked (u ++ r).reverse) : r = [] := by
  by_contra hne
  obtain ⟨v, d, rfl⟩ := eq_nil_or_concat' r |>.resolve_left hne
  have hblank := isBlank_of_isAt h d (by simp)
  rw [← append_assoc, reverse_append] at hend
  simp [hend d rfl] at hblank

/-- Identifiers, and perhaps a line feed, are what the pattern of an identifier matches. -/
lemma isIdentifierLine_iff : isIdentifierLine t ↔
    ∃ name r : Text, IsIdentifier name ∧ (r = [] ∨ r = ['\n']) ∧ t = name ++ r := by
  have hend : ∀ u r parts, (Head.between u r parts).isAt .lastLineEnd ↔ r = [] ∨ r = ['\n'] := by
    simp [Head.isAt, Head.between]
  rw [isIdentifierLine, match?_eq, identifierPattern_eq]
  simp only [run_ofList_cons]
  constructor
  · intro h
    obtain ⟨hit, hrun⟩ := isSome_iff_exists.mp h
    obtain ⟨_, _, ⟨c, rfl, hc⟩, rfl, h₁⟩ := Takes.one.sound (run_place.mp hrun).2
    obtain ⟨u, r, hu, rfl, h₂⟩ := takes_parts.sound h₁
    exact ⟨c :: u, r, ⟨c, u, rfl, (startSet_holds c).mp hc, hu⟩, (hend _ _ _).mp (run_place.mp h₂).1, rfl⟩
  · rintro ⟨_, r, ⟨c, u, rfl, hc, hu⟩, hr, rfl⟩
    exact isSome_run_place rfl (Takes.one.complete (w := [c]) (r := u ++ r) ⟨c, rfl, (startSet_holds c).mpr hc⟩
      (takes_parts.complete hu (isSome_run_place ((hend _ _ _).mpr hr) rfl)))

/-- The end of a clause with braces. -/
lemma exists_of_run_closing {α : Type} {next : Continuation α} {a : α} {u r : Text}
    {parts : List (Nat × Nat × Nat)} (hrun : (ofList closing).run next (.between u r parts) = some a) :
    ∃ b comma b' r' : Text, b.IsBlank ∧ (comma = [] ∨ comma = ",") ∧ b'.IsBlank ∧
      r = b ++ (comma ++ (b' ++ ("\x7d" ++ r'))) ∧
      (Head.between (u ++ b ++ comma ++ b' ++ "\x7d") r' parts).isAt .lastLineEnd ∧
      next (.between (u ++ b ++ comma ++ b' ++ "\x7d") r' parts) = some a := by
  simp only [closing, run_ofList_cons] at hrun
  obtain ⟨b, _, hb, rfl, h₁⟩ := takes_blanks.sound hrun
  obtain ⟨comma, _, hcomma, rfl, h₂⟩ := (takes_sign _).sound h₁
  obtain ⟨b', _, hb', rfl, h₃⟩ := takes_blanks.sound h₂
  obtain ⟨r', rfl, h₄⟩ := exists_of_run_word h₃
  rw [run_ofList_cons, run_place] at h₄
  exact ⟨b, comma, b', r', hb, hcomma, hb', rfl, h₄⟩

/-- The clause with braces has the form that its pattern matches. -/
lemma exists_of_match_named {hit : Hit} (hend : Text.StartsInked clause.reverse)
    (hmatch : namedClausePattern.match? clause = some hit) :
    ∃ name, ClauseText clause .named name (hit.part? clause 2) ∧ hit.part? clause 1 = some name := by
  rw [match?_eq, namedClausePattern_eq, run_ofList_cons, run_place] at hmatch
  obtain ⟨_, rfl, h₁⟩ := exists_of_run_word hmatch.2
  simp only [run_ofList_cons] at h₁
  obtain ⟨b, _, hb, rfl, h₂⟩ := takes_blanks.sound h₁
  obtain ⟨name, _, hname, rfl, h₃⟩ := takes_identifier.group_sound h₂
  rw [run_option] at h₃
  rcases eq_or_eq_of_firstOf h₃ with hrun | hrun
  · obtain ⟨g, _, hg, rfl, h₄⟩ := takes_gap.sound hrun
    obtain ⟨_, rfl, h₅⟩ := exists_of_run_word h₄
    simp only [run_ofList_cons, run_ofList_nil] at h₅
    obtain ⟨g', _, hg', rfl, h₆⟩ := takes_gap.sound h₅
    obtain ⟨new, _, hnew, rfl, h₇⟩ := takes_identifier.group_sound h₆
    obtain ⟨b', comma, b'', r, hb', hcomma, hb'', rfl, hat, hnext⟩ := exists_of_run_closing h₇
    obtain rfl := eq_nil_of_isAt hat (by simpa using hend)
    obtain rfl := some.inj hnext
    refine ⟨name, ?_, Hit.part?_eq rfl (by simp)⟩
    rw [Hit.part?_eq (w := new) rfl (by simp)]
    have hclause := ClauseText.named hb hname (.some hg hg' hnew) hb' hcomma hb''
    simp only [append_assoc] at hclause
    exact hclause
  · obtain ⟨b', comma, b'', r, hb', hcomma, hb'', rfl, hat, hnext⟩ := exists_of_run_closing hrun
    obtain rfl := eq_nil_of_isAt hat (by simpa using hend)
    obtain rfl := some.inj hnext
    exact ⟨name, .named hb hname .none hb' hcomma hb'', Hit.part?_eq rfl (by simp)⟩

/-- No clause with braces is missed. -/
lemma isSome_match_named (h : ClauseText clause .named name newName) :
    (namedClausePattern.match? clause).isSome := by
  cases h with
  | @named b _ other b' comma b'' _ hb hname hother hb' hcomma hb'' =>
    have hclosing : ∀ u parts, ((ofList closing).run (fun h => some (⟨0, h.offset, h.captured⟩ : Hit))
        (.between u (b' ++ (comma ++ (b'' ++ (Text.ofString "\x7d" ++ [])))) parts)).isSome := by
      intro u parts
      simp only [closing, run_ofList_cons]
      refine takes_blanks.complete hb' ((takes_sign _).complete hcomma (takes_blanks.complete hb'' ?_))
      exact isSome_run_word (isSome_run_place rfl rfl)
    rw [match?_eq, namedClausePattern_eq, run_ofList_cons, ← append_nil (Text.ofString "\x7d")]
    refine isSome_run_place rfl (isSome_run_word ?_)
    simp only [run_ofList_cons]
    refine takes_blanks.complete hb (takes_identifier.group_complete hname ?_)
    rw [run_option]
    cases hother with
    | none => exact isSome_pick true (.inr (hclosing _ _))
    | some hg hg' hnew =>
      simp only [append_assoc]
      refine isSome_pick true (.inl (takes_gap.complete hg (isSome_run_word ?_)))
      simp only [run_ofList_cons]
      exact takes_gap.complete hg' (takes_identifier.group_complete hnew (hclosing _ _))

/-- The clause for the whole module has the form that its pattern matches. -/
lemma exists_of_match_star {hit : Hit} (hend : Text.StartsInked clause.reverse)
    (hmatch : starClausePattern.match? clause = some hit) :
    ∃ name, ClauseText clause .star name none ∧ hit.part? clause 1 = some name := by
  rw [match?_eq, starClausePattern_eq, run_ofList_cons, run_place] at hmatch
  obtain ⟨_, rfl, h₁⟩ := exists_of_run_word hmatch.2
  rw [run_ofList_cons] at h₁
  obtain ⟨b, _, hb, rfl, h₂⟩ := takes_blanks.sound h₁
  obtain ⟨_, rfl, h₃⟩ := exists_of_run_word h₂
  simp only [run_ofList_cons] at h₃
  obtain ⟨g, _, hg, rfl, h₄⟩ := takes_gap.sound h₃
  obtain ⟨name, r, hname, rfl, h₅⟩ := takes_identifier.group_sound h₄
  obtain ⟨hat, hnext⟩ := run_place.mp h₅
  obtain rfl := eq_nil_of_isAt hat (by simpa using hend)
  obtain rfl := some.inj hnext
  rw [append_nil]
  exact ⟨name, .star hb hg hname, Hit.part?_eq rfl (by simp)⟩

/-- No clause for the whole module is missed. -/
lemma isSome_match_star (h : ClauseText clause .star name newName) :
    (starClausePattern.match? clause).isSome := by
  cases h with
  | @star b g _ hb hg hname =>
    rw [match?_eq, starClausePattern_eq, run_ofList_cons, ← append_nil name]
    refine isSome_run_place rfl (isSome_run_word ?_)
    rw [run_ofList_cons]
    refine takes_blanks.complete hb (isSome_run_word ?_)
    simp only [run_ofList_cons]
    exact takes_gap.complete hg (takes_identifier.group_complete hname (isSome_run_place rfl rfl))

/-- **The clause of an import statement** is read in the one form that it has. -/
theorem ofClause?_eq_some_iff {source : Text} (hend : Text.StartsInked clause.reverse) :
    ofClause? statement source clause = some c ↔ ∃ kind name newName,
      ClauseText clause kind name newName ∧ c = ⟨statement, source, kind, name, newName⟩ := by
  have hidentifier : isIdentifierLine clause ↔ IsIdentifier clause := by
    rw [isIdentifierLine_iff]
    refine ⟨?_, fun h => ⟨clause, [], h, .inl rfl, (append_nil _).symm⟩⟩
    rintro ⟨name, r, hname, rfl | rfl, rfl⟩
    · rwa [append_nil]
    · exact absurd (hend '\n' (by simp)) (by decide)
  constructor
  · intro h
    rw [ofClause?] at h
    split at h
    · rename_i hit hmatch
      obtain ⟨name, hclause, hname⟩ := exists_of_match_named hend hmatch
      rw [hname] at h
      exact ⟨_, name, _, hclause, (some.inj h).symm⟩
    · split at h
      · rename_i hit hmatch
        obtain ⟨name, hclause, hname⟩ := exists_of_match_star hend hmatch
        rw [hname] at h
        exact ⟨_, name, _, hclause, (some.inj h).symm⟩
      · split_ifs at h with hline
        exact ⟨_, _, _, .default (hidentifier.mp hline), (some.inj h).symm⟩
  · rintro ⟨kind, name, newName, hclause, rfl⟩
    rw [ofClause?]
    split
    · rename_i hit hmatch
      obtain ⟨name', hclause', hname⟩ := exists_of_match_named hend hmatch
      obtain ⟨rfl, rfl, rfl⟩ := hclause.unique hclause' rfl
      rw [hname]
      rfl
    · rename_i hnamed
      split
      · rename_i hit hmatch
        obtain ⟨name', hclause', hname⟩ := exists_of_match_star hend hmatch
        obtain ⟨rfl, rfl, rfl⟩ := hclause.unique hclause' rfl
        rw [hname]
        rfl
      · rename_i hstar
        cases id hclause with
        | default hname => exact if_pos (hidentifier.mpr hname)
        | star => simpa [hstar] using isSome_match_star hclause
        | named => simpa [hnamed] using isSome_match_named hclause

/-! ## Statements -/

/-- `IsFramed statement inside source`: the text `statement` is an import statement of the module `source`
that has something inside of it, of which nothing is known but that it has no quotes. -/
inductive IsFramed (statement : Text) : Text → Text → Prop where
  | mk {b g inside g' g'' source b' semicolon b'' : Text} {quote : CodePoint} (hbefore : b.IsBlank)
      (hgap : g.IsGap) (hinside : inside ≠ [] ∧ ∀ c ∈ inside, c ≠ '\'' ∧ c ≠ '"')
      (hfrom : g'.IsGap) (hmodule : g''.IsGap) (hquote : quote = '\'' ∨ quote = '"')
      (hsource : source ≠ [] ∧ ∀ c ∈ source, c ≠ '\'' ∧ c ≠ '"') (hend : b'.IsBlank)
      (hsemicolon : semicolon = [] ∨ semicolon = ";") (hafter : b''.IsBlank)
      (heq : statement = b ++ ("import" ++ (g ++ (inside ++ (g' ++ ("from" ++ (g'' ++
        quote :: (source ++ quote :: (b' ++ (semicolon ++ b'')))))))))) :
    IsFramed statement inside source

/-- An import statement has the form that its pattern matches. -/
lemma exists_of_match_import {hit : Hit} (hmatch : importPattern.match? statement = some hit) :
    ∃ inside source, IsFramed statement inside source ∧ hit.part? statement 1 = some inside ∧
      hit.part? statement 3 = some source := by
  rw [match?_eq, importPattern_eq] at hmatch
  simp only [run_ofList_cons] at hmatch
  obtain ⟨b, _, hb, rfl, h₁⟩ := takes_blanks.sound (run_place.mp hmatch).2
  obtain ⟨_, rfl, h₂⟩ := exists_of_run_word h₁
  simp only [run_ofList_cons] at h₂
  obtain ⟨g, _, hg, rfl, h₃⟩ := takes_gap.sound h₂
  obtain ⟨inside, _, hinside, rfl, h₄⟩ := (takes_unquoted (by decide)).group_sound h₃
  obtain ⟨g', _, hg', rfl, h₅⟩ := takes_gap.sound h₄
  obtain ⟨_, rfl, h₆⟩ := exists_of_run_word h₅
  simp only [run_ofList_cons] at h₆
  obtain ⟨g'', _, hg'', rfl, h₇⟩ := takes_gap.sound h₆
  obtain ⟨_, _, ⟨quote, rfl, hquote⟩, rfl, h₈⟩ := takes_quote.group_sound h₇
  obtain ⟨source, _, hsource, rfl, h₉⟩ := (takes_unquoted (by decide)).group_sound h₈
  obtain ⟨_, rfl, hend₁⟩ := (run_again rfl).mp h₉
  obtain ⟨b', _, hb', rfl, hend₂⟩ := takes_blanks.sound hend₁
  obtain ⟨semicolon, _, hsemicolon, rfl, hend₃⟩ := (takes_sign _).sound hend₂
  obtain ⟨b'', r, hb'', rfl, hend₄⟩ := takes_blanks.sound hend₃
  obtain ⟨hat, hnext⟩ := run_place.mp hend₄
  obtain rfl := some.inj hnext
  exact ⟨inside, source, .mk hb hg hinside hg' hg'' hquote hsource hb' hsemicolon
    (hb''.append (isBlank_of_isAt hat)) rfl, Hit.part?_eq rfl (by simp), Hit.part?_eq rfl (by simp)⟩

/-- No import statement is missed. -/
lemma IsFramed.isSome_match {inside source : Text} (h : IsFramed statement inside source) :
    (importPattern.match? statement).isSome := by
  obtain @⟨b, g, _, g', g'', _, b', semicolon, b'', quote, hb, hg, hinside, hg', hg'', hquote, hsource, hb',
    hsemicolon, hb'', rfl⟩ := h
  rw [match?_eq, importPattern_eq]
  simp only [run_ofList_cons]
  refine isSome_run_place rfl (takes_blanks.complete hb (isSome_run_word ?_))
  simp only [run_ofList_cons]
  refine takes_gap.complete hg ((takes_unquoted (by decide)).group_complete hinside
    (takes_gap.complete hg' (isSome_run_word ?_)))
  simp only [run_ofList_cons]
  refine takes_gap.complete hg'' (takes_quote.group_complete (w := [quote]) ⟨quote, rfl, hquote⟩
    ((takes_unquoted (by decide)).group_complete hsource (isSome_run_again (w := [quote]) rfl ?_)))
  rw [← append_nil b'']
  exact takes_blanks.complete hb' ((takes_sign _).complete hsemicolon
    (takes_blanks.complete hb'' (isSome_run_place rfl rfl)))

end Patterns

/-- What is inside of a text is the same without white space around it. -/
lemma trim_between {b b' : Text} (hb : b.IsBlank) (hb' : b'.IsBlank) (t : Text) :
    Text.trim (b ++ (t ++ b')) = t.trim := by
  obtain ⟨⟨x, y, hx, hy, ht⟩, hinked, hend⟩ := trim_eq_iff.mp (rfl : t.trim = _)
  refine trim_eq_iff.mpr ⟨⟨b ++ x, y ++ b', hb.append hx, hy.append hb', ?_⟩, hinked, hend⟩
  nth_rewrite 1 [ht]
  simp only [append_assoc]

lemma unquoted_of_isBlank {b : Text} (hb : b.IsBlank) : ∀ c ∈ b, c ≠ '\'' ∧ c ≠ '"' := by
  intro c hc
  have hblank := hb c hc
  constructor <;> rintro rfl <;> exact absurd hblank (by decide)

lemma unquoted_of_isIdentifier (ht : IsIdentifier t) : ∀ c ∈ t, c ≠ '\'' ∧ c ≠ '"' := by
  intro c hc
  constructor <;> rintro rfl <;> exact ht.notMem (by decide +kernel) hc

/-- There are no quotes in a clause. -/
lemma ClauseText.unquoted (h : ClauseText clause kind name newName) :
    ∀ c ∈ clause, c ≠ '\'' ∧ c ≠ '"' := by
  cases h with
  | default hname => exact unquoted_of_isIdentifier hname
  | star hb hg hname =>
    simp only [forall_mem_append]
    exact ⟨by decide, unquoted_of_isBlank hb, by decide, unquoted_of_isBlank hg.2,
      unquoted_of_isIdentifier hname⟩
  | @named b _ other b' comma b'' _ hb hname hother hb' hcomma hb'' =>
    have hinside : ∀ c ∈ other, c ≠ '\'' ∧ c ≠ '"' := by
      cases hother with
      | none => exact forall_mem_nil _
      | some hg hg' hnew =>
        simp only [forall_mem_append]
        exact ⟨unquoted_of_isBlank hg.2, by decide, unquoted_of_isBlank hg'.2, unquoted_of_isIdentifier hnew⟩
    have hsign : ∀ c ∈ comma, c ≠ '\'' ∧ c ≠ '"' := by
      rcases hcomma with rfl | rfl <;> decide
    simp only [forall_mem_append]
    exact ⟨by decide, unquoted_of_isBlank hb, unquoted_of_isIdentifier hname, hinside,
      unquoted_of_isBlank hb', hsign, unquoted_of_isBlank hb'', by decide⟩

/-- **A statement has one reading**, but for white space around what is inside of it.

**Proof sketch.** White space ends where `import` begins. The first quote ends what is inside together with
`from`, and the next one ends the module. Before the white space in front of the first quote stands `from`,
and before that is what is inside. -/
theorem IsFramed.unique {inside inside' source source' : Text} (h : IsFramed statement inside source)
    (h' : IsFramed statement inside' source') : inside.trim = inside'.trim ∧ source = source' := by
  obtain @⟨b₁, g₁, _, g₁', g₁'', _, _, _, _, quote₁, hb₁, hg₁, hinside₁, hg₁', hg₁'', hquote₁, hsource₁, -, -, -,
    heq₁⟩ := h
  obtain @⟨b₂, g₂, _, g₂', g₂'', _, _, _, _, quote₂, hb₂, hg₂, hinside₂, hg₂', hg₂'', hquote₂, hsource₂, -, -, -,
    heq₂⟩ := h'
  let isPlain : CodePoint → Bool := fun c => c != '\'' && c != '"'
  have hplain : ∀ {t : Text}, (∀ c ∈ t, c ≠ '\'' ∧ c ≠ '"') → ∀ c ∈ t, isPlain c := by
    simp [isPlain]
  have hstop : ∀ {quote : CodePoint} {r : Text}, quote = '\'' ∨ quote = '"' →
      ∀ c ∈ (quote :: r).head?, isPlain c = false := by
    rintro quote r (rfl | rfl) <;> simp [isPlain]
  have hfront : ∀ {g inside g' g'' : Text}, g.IsGap → (∀ c ∈ inside, c ≠ '\'' ∧ c ≠ '"') →
      g'.IsGap → g''.IsGap → ∀ c ∈ g ++ (inside ++ (g' ++ ("from" ++ g''))), isPlain c := by
    intro g inside g' g'' hg hinside hg' hg''
    refine hplain (forall_mem_append.mpr ⟨unquoted_of_isBlank hg.2, forall_mem_append.mpr ⟨hinside, ?_⟩⟩)
    simp only [forall_mem_append]
    exact ⟨unquoted_of_isBlank hg'.2, by decide, unquoted_of_isBlank hg''.2⟩
  have hword : ∀ r : Text, Text.StartsInked ("import" ++ r) := startsInked_cons (by decide)
  obtain ⟨-, heq⟩ := append_inj_of_run hb₁ hb₂ (hword _) (hword _) (heq₁.symm.trans heq₂)
  have hassoc : ∀ g inside g' g'' r : Text, g ++ (inside ++ (g' ++ ("from" ++ (g'' ++ r)))) =
      g ++ (inside ++ (g' ++ ("from" ++ g''))) ++ r := by simp
  have heq := append_cancel_left heq
  rw [hassoc, hassoc] at heq
  obtain ⟨hfronts, heq⟩ := append_inj_of_run (hfront hg₁ hinside₁.2 hg₁' hg₁'')
    (hfront hg₂ hinside₂.2 hg₂' hg₂'') (hstop hquote₁) (hstop hquote₂) heq
  obtain ⟨rfl, heq⟩ := cons.inj heq
  refine ⟨?_, (append_inj_of_run (hplain hsource₁.2) (hplain hsource₂.2) (hstop hquote₁) (hstop hquote₂) heq).1⟩
  -- read from its end, the front is white space and then `from`
  have hback : ∀ g inside g' g'' : Text, (g ++ (inside ++ (g' ++ (Text.ofString "from" ++ g'')))).reverse =
      g''.reverse ++ (Text.ofString "morf" ++ (g ++ (inside ++ g')).reverse) := by
    simp [Text.ofString]
  have hends := congrArg reverse hfronts
  rw [hback, hback] at hends
  have hreverse : ∀ {g : Text}, g.IsGap → ∀ c ∈ g.reverse, c.isBlank := fun hg c hc => hg.2 c (mem_reverse.mp hc)
  have hword : ∀ r : Text, Text.StartsInked ("morf" ++ r) := startsInked_cons (by decide)
  obtain ⟨-, hends⟩ := append_inj_of_run (hreverse hg₁'') (hreverse hg₂'') (hword _) (hword _) hends
  have hmiddle := reverse_injective (append_cancel_left hends)
  rw [← trim_between hg₁.2 hg₁'.2, hmiddle, trim_between hg₂.2 hg₂'.2]

/-- An import statement has a clause inside of it. -/
lemma spells_iff : Spells statement c ↔ ∃ inside source kind name newName,
    IsFramed statement inside source ∧ ClauseText inside.trim kind name newName ∧
      c = ⟨statement.trim, source, kind, name, newName⟩ := by
  constructor
  · rintro @⟨b, g, clause, g', g'', source, b', semicolon, b'', name, quote, kind, newName, hb, hg, hclause, hg',
      hg'', hquote, hne, hsource, hb', hsemicolon, hb'', heq⟩
    obtain ⟨hclauseNe, hstarts, hends⟩ := hclause.inked
    have htrim : clause.trim = clause :=
      trim_eq_iff.mpr ⟨⟨[], [], isBlank_nil, isBlank_nil, by simp⟩, hstarts, hends⟩
    exact ⟨clause, source, kind, name, newName, .mk hb hg ⟨hclauseNe, hclause.unquoted⟩ hg' hg'' hquote
      ⟨hne, hsource⟩ hb' hsemicolon hb'' heq, htrim.symm ▸ hclause, rfl⟩
  · rintro ⟨inside, source, kind, name, newName,
      @⟨b, g, _, g', g'', _, b', semicolon, b'', quote, hb, hg, -, hg', hg'', hquote, hsource, hb', hsemicolon,
        hb'', heq⟩, hclause, rfl⟩
    obtain ⟨⟨x, y, hx, hy, htrim⟩, -⟩ := trim_eq_iff.mp (rfl : inside.trim = _)
    have hgap : Text.IsGap (g ++ x) := ⟨by simp [hg.1], hg.2.append hx⟩
    have hgap' : Text.IsGap (y ++ g') := ⟨by simp [hg'.1], hy.append hg'.2⟩
    refine .mk hb hgap hclause hgap' hg'' hquote hsource.1 hsource.2 hb' hsemicolon hb'' ?_
    rw [heq]
    nth_rewrite 1 [htrim]
    simp only [append_assoc]

/-- What is read is in the grammar. -/
lemma spells_of_parse? (h : parse? statement = some c) : Spells statement c := by
  simp only [parse?, bind_eq_bind, bind_eq_some_iff] at h
  obtain ⟨hit, hmatch, inside, hinside, source, hsource, hclause⟩ := h
  obtain ⟨inside', source', hframed, hinside', hsource'⟩ := exists_of_match_import hmatch
  obtain rfl := some.inj (hinside.symm.trans hinside')
  obtain rfl := some.inj (hsource.symm.trans hsource')
  have hend := (trim_eq_iff.mp (rfl : inside.trim = _)).2.2
  obtain ⟨kind, name, newName, hread, rfl⟩ := (ofClause?_eq_some_iff hend).mp hclause
  exact spells_iff.mpr ⟨inside, source, kind, name, newName, hframed, hread, rfl⟩

/-- What the caller's own statement consists of: it imports an identifier in one of the three ways,
and may give it another identifier. -/
lemma parse?_spec (h : parse? statement = some c) :
    (c.kind = .named ∨ c.kind = .default ∨ c.kind = .star) ∧ IsIdentifier c.name ∧
      ∀ new ∈ c.newName, IsIdentifier new := by
  obtain @⟨_, _, _, _, _, _, _, _, _, _, _, _, _, -, -, hclause, -⟩ := spells_of_parse? h
  cases hclause with
  | default hname => exact ⟨.inr (.inl rfl), hname, nofun⟩
  | star _ _ hname => exact ⟨.inr (.inr rfl), hname, nofun⟩
  | named _ hname hother =>
    refine ⟨.inl rfl, hname, ?_⟩
    cases hother with
    | none => exact nofun
    | some _ _ hnew => exact fun _ h => some.inj h ▸ hnew

/-- The caller's own statement binds an identifier. -/
lemma isIdentifier_localName (h : parse? statement = some c) : IsIdentifier c.localName := by
  obtain ⟨-, hname, hnew⟩ := parse?_spec h
  rw [localName]
  cases hc : c.newName with
  | none => exact hname
  | some new => exact hnew new hc

/-- What is in the grammar is read. -/
lemma Spells.parse?_eq (h : Spells statement c) : parse? statement = some c := by
  obtain ⟨inside, source, kind, name, newName, hframed, hclause, rfl⟩ := spells_iff.mp h
  obtain ⟨hit, hmatch⟩ := isSome_iff_exists.mp hframed.isSome_match
  obtain ⟨inside', source', hframed', hinside', hsource'⟩ := exists_of_match_import hmatch
  obtain ⟨htrim, rfl⟩ := hframed.unique hframed'
  have hend := (trim_eq_iff.mp (rfl : inside'.trim = _)).2.2
  simp only [parse?, bind_eq_bind, bind_eq_some_iff]
  refine ⟨hit, hmatch, inside', hinside', source, hsource', ?_⟩
  exact (ofClause?_eq_some_iff hend).mpr ⟨kind, name, newName, htrim ▸ hclause, rfl⟩

/-- **Import statements are read exactly as the grammar has them.** -/
theorem parse?_eq_some_iff {statement : Text} {c : CustomImport} :
    parse? statement = some c ↔ Spells statement c :=
  ⟨spells_of_parse?, Spells.parse?_eq⟩

end CustomImport

end Phrasebook
