import Phrasebook.Proofs.Message.Arguments
import Phrasebook.Proofs.Message.Assignment
import Phrasebook.Proofs.Pattern.Hits
import Phrasebook.Proofs.Text.Encodable
import Phrasebook.Site.Replacement

/-!
# Messages that can be written out

Where no function of the caller makes keys, a new key is the message text itself, and a known key comes
from the catalogue.

## Main results

* `Options.isEncodable_lookup` — a lookup can be written out if its key, its arguments and the text can.
* `gives_resolveKey` — the keys of phrases that can be written out can be, and so can their records.
-/

namespace Phrasebook

open List Option Text

variable {key : Key} {policy : KeyPolicy} {p : Phrase} {payload t : Text}
  {arguments : List Argument} {d : Delimiter}

/-! ## Lookups -/

/-- Whether a phrase can be written out. -/
def Phrase.isEncodable (p : Phrase) : Bool := p.full.isEncodable && p.payload.isEncodable

lemma Phrase.isEncodable_iff : p.isEncodable ↔ p.full.isEncodable ∧ p.payload.isEncodable :=
  Bool.and_eq_true_iff

/-- Whether a key can be written out. -/
def Key.isEncodable (k : Key) : Bool := k.text.isEncodable

lemma Delimiter.isEncodable_of_mem_phrases (h : t.isEncodable) (hp : p ∈ d.phrases t) :
    p.isEncodable := by
  refine Phrase.isEncodable_iff.mpr ⟨?_, isEncodable_of_subset (d.payload_subset hp) h⟩
  rw [(d.mem_phrases hp).2]
  exact isEncodable_slice h _ _

namespace Json

lemma isEncodable_escapePoint {c : CodePoint} (h : c.isSurrogate = false) :
    (escapePoint c).isEncodable := by
  rw [escapePoint]
  split_ifs <;> simp [h]

lemma isEncodable_quote (h : t.isEncodable) : (quote t).isEncodable := by
  have hinner : Text.isEncodable (t.flatMap escapePoint) :=
    isEncodable_flatMap fun c hc => isEncodable_escapePoint (isEncodable_iff.mp h c hc)
  simp [quote, hinner]

end Json

namespace Key

variable {k : Key}

lemma isEncodable_literal (h : k.isEncodable) : k.literal.isEncodable := by
  cases k with
  | name t => exact Json.isEncodable_quote h
  | number n => exact isEncodable_ofInt n

lemma isEncodable_singleQuoted (h : t.isEncodable) : (singleQuoted t).isEncodable := by
  have hinner : Text.isEncodable ((Json.quote t).drop 1).dropLast :=
    isEncodable_of_subset (dropLast_subset _) (isEncodable_drop (Json.isEncodable_quote h) 1)
  simp only [singleQuoted, isEncodable_append, isEncodable_ofString, Bool.true_and,
    Bool.and_true]
  refine isEncodable_replaceAll (isEncodable_replaceAll
    (isEncodable_replaceAll hinner ?_) ?_) ?_ <;> exact isEncodable_ofString _

lemma isEncodable_attributeLiteral (h : k.isEncodable) (mark : Option QuoteMark) :
    (k.attributeLiteral mark).isEncodable := by
  cases k with
  | number n => exact isEncodable_ofInt n
  | name t =>
    rcases mark with _ | _ | _
    · exact Json.isEncodable_quote h
    · exact isEncodable_replaceAll (Json.isEncodable_quote h) (isEncodable_ofString _)
    · exact isEncodable_singleQuoted h

end Key

/-- A message text is its payload with placeholders in it. -/
lemma isEncodable_canonicalize (h : payload.isEncodable) : (canonicalize payload).isEncodable := by
  have hwalk : ∀ (t : Text) (afterBackslash : Bool) (skip count : Nat), t.isEncodable →
      (canonicalFrom afterBackslash skip count t).isEncodable := by
    intro t
    induction t with
    | nil => exact fun _ _ _ _ => rfl
    | cons c rest ih =>
      intro afterBackslash skip count hcons
      obtain ⟨hc, hrest⟩ := Bool.and_eq_true_iff.mp hcons
      have hkept : ∀ afterBackslash, Text.isEncodable
          (c :: canonicalFrom afterBackslash 0 count rest) := fun afterBackslash =>
        Bool.and_eq_true_iff.mpr ⟨hc, ih _ _ _ hrest⟩
      cases skip with
      | succ skip => exact ih _ _ _ hrest
      | zero =>
        rw [canonicalFrom]
        split_ifs
        · exact hkept _
        · split
          · exact hkept _
          · simp [placeholder, isEncodable_take hcons, ih _ _ _ hrest]
  exact hwalk payload false 0 0 h

/-- Whether an argument can be written out. -/
def Argument.isEncodable (a : Argument) : Bool := a.name.isEncodable && a.expression.isEncodable

@[simp]
lemma isEncodable_argumentName (n : Nat) : (argumentName n).isEncodable := by
  simp [argumentName]

lemma isEncodable_of_mem_informalArguments (h : payload.isEncodable) {a : Argument}
    (ha : a ∈ informalArguments payload) : a.isEncodable := by
  obtain ⟨hname, hsubset, -⟩ := isFrom_of_mem_informalArguments ha
  have hexpression := isEncodable_of_subset hsubset h
  refine Bool.and_eq_true_iff.mpr ⟨?_, hexpression⟩
  rcases hname with hname | ⟨n, hname⟩
  · rwa [hname]
  · rw [hname, isEncodable_argumentName]

lemma isEncodable_renderArguments
    (h : ∀ a ∈ arguments, a.isEncodable) : (renderArguments arguments).isEncodable := by
  simp only [renderArguments, isEncodable_append, isEncodable_ofString, Bool.true_and,
    Bool.and_true]
  refine isEncodable_join (isEncodable_ofString _) fun part hpart => ?_
  obtain ⟨a, ha, rfl⟩ := mem_map.mp hpart
  obtain ⟨hname, hexpression⟩ := Bool.and_eq_true_iff.mp (h a ha)
  split_ifs
  · exact hname
  · simp [hname, hexpression]

lemma isEncodable_withoutCommentEnd (h : t.isEncodable) : (withoutCommentEnd t).isEncodable :=
  isEncodable_replaceAll h (isEncodable_ofString _)

namespace Options

variable {o : Options}

lemma isEncodable_comment {canonical : Text} (h : canonical.isEncodable) (blockOnly : Bool) :
    (o.comment canonical blockOnly).isEncodable := by
  have hline : (onOneLine canonical).isEncodable :=
    isEncodable_replaceAll (isEncodable_replaceAll h (isEncodable_ofString _))
      (isEncodable_ofString _)
  rw [comment]
  split_ifs
  · rfl
  · simp [blockComment, isEncodable_withoutCommentEnd h]
  · simp [lineComment, hline]

/-- **Lookups can be written out** if their name, their key, the message text and their arguments
can. -/
theorem isEncodable_lookup (hwrite : o.writeCall = none) {callName : Text} (hname : callName.isEncodable)
    (hkey : key.isEncodable) (hpayload : payload.isEncodable)
    (harguments : ∀ a ∈ arguments, a.isEncodable) (blockOnly : Bool) :
    (o.lookup callName key payload arguments blockOnly).isEncodable := by
  have hcanonical := isEncodable_canonicalize hpayload
  have hliteral := Key.isEncodable_literal hkey
  rw [lookup, isEncodable_append, isEncodable_comment hcanonical, Bool.and_true, call, hwrite]
  simp only
  split_ifs
  · simp [hname, hliteral]
  · simp [hname, hliteral, isEncodable_renderArguments harguments]

end Options

/-! ## Keys -/

/-- No function of the caller makes keys. -/
structure KeyPolicy.IsPlain (policy : KeyPolicy) : Prop where
  generate_eq : policy.generate = none
  onConflict_ne : ∀ decide, policy.onConflict ≠ .ask decide

/-- The keys of a catalogue can be written out. -/
def Catalogue.IsEncodable (catalogue : Catalogue) : Prop :=
  ∀ x ∈ catalogue, x.2.primary.isEncodable = true

/-- Books in which every new key is its message text; with `strict`, the records of new keys can be
written out. -/
structure Ledger.IsPlain (strict : Bool) (l : Ledger) : Prop where
  generated : ∀ x ∈ l.generated, x.2 = .name x.1
  extracted : strict = true → ∀ r ∈ l.extracted, r.key.isEncodable = true ∧ r.value.isEncodable = true
  used : ∀ r ∈ l.used, r.key.isEncodable = true

/-- `Gives I x Q`: if the step `x` finds books with `I`, it leaves such books, and gives something with
`Q`. -/
def Gives {α : Type} (I : Ledger → Prop) (x : Bookkeeping α) (Q : α → Prop) : Prop :=
  ∀ l a l', Runs x l a l' → I l → I l' ∧ Q a

namespace Gives

variable {α β : Type} {I : Ledger → Prop} {Q : α → Prop} {R : β → Prop}

lemma pure {a : α} (h : Q a) : Gives I (Pure.pure a) Q := by
  intro l b l' hrun hl
  obtain ⟨rfl, rfl⟩ := runs_pure.mp hrun
  exact ⟨hl, h⟩

lemma throw {failure : Failure} : Gives I (MonadExcept.throw failure : Bookkeeping α) Q :=
  fun _ _ _ hrun => absurd hrun runs_throw

lemma bind {x : Bookkeeping α} {f : α → Bookkeeping β} (hx : Gives I x Q)
    (hf : ∀ a, Q a → Gives I (f a) R) : Gives I (x >>= f) R := by
  intro l b l' hrun hl
  obtain ⟨a, m, hfirst, hsecond⟩ := runs_bind.mp hrun
  obtain ⟨hm, ha⟩ := hx l a m hfirst hl
  exact hf a ha m b l' hsecond hm

lemma imp {Q' : α → Prop} {x : Bookkeeping α} (h : Gives I x Q) (himp : ∀ a, Q a → Q' a) :
    Gives I x Q' := by
  intro l a l' hrun hl
  obtain ⟨hl', ha⟩ := h l a l' hrun hl
  exact ⟨hl', himp a ha⟩

lemma ofExcept {x : Except Failure α} (h : ∀ a, x = .ok a → Q a) : Gives I (.ofExcept x) Q := by
  intro l a l' hrun hl
  obtain ⟨hx, rfl⟩ := runs_ofExcept.mp hrun
  exact ⟨hl, h a hx⟩

lemma resolved {x : Bookkeeping (Option Key)} {others : Bookkeeping (List (Phrase × Key))}
    {P : Phrase × Key → Prop} (hx : Gives I x fun key => ∀ k ∈ key, P (p, k))
    (hothers : Gives I others fun rest => ∀ y ∈ rest, P y) :
    Gives I (do
      let key ← x
      let rest ← others
      return (key.map fun k => (p, k)).toList ++ rest) fun all => ∀ y ∈ all, P y := by
  refine hx.bind fun key hkey => hothers.bind fun rest hrest => .pure fun y hy => ?_
  rcases mem_append.mp hy with hy | hy
  · obtain ⟨k, hk, rfl⟩ := map_eq_some_iff.mp (mem_toList.mp hy)
    exact hkey k hk
  · exact hrest y hy

end Gives

section Keys

variable {strict : Bool} {value : Text} {location : Location}

lemma gives_giveNew (hvalue : strict → value.isEncodable) :
    Gives (Ledger.IsPlain strict) (giveNew value location (.name value))
      fun key => value.isEncodable = true → key.isEncodable = true := by
  intro l key l' hrun hl
  obtain ⟨rfl, rfl⟩ : key = .name value ∧ l' = l.recordExtracted ⟨.name value, value, location⟩ := by
    obtain ⟨hok, hbooks⟩ := Prod.mk.inj hrun
    exact ⟨(Except.ok.inj hok).symm, hbooks.symm⟩
  refine ⟨?_, fun h => h⟩
  rw [Ledger.recordExtracted]
  split_ifs
  · exact hl
  · refine ⟨hl.generated, fun hstrict r hr => ?_, hl.used⟩
    rcases mem_append.mp hr with hr | hr
    · exact hl.extracted hstrict r hr
    · obtain rfl := mem_singleton.mp hr
      exact ⟨hvalue hstrict, hvalue hstrict⟩

lemma gives_giveKnown (hkey : key.isEncodable) :
    Gives (Ledger.IsPlain strict) (giveKnown value location key) fun k => k.isEncodable = true := by
  intro l k l' hrun hl
  obtain ⟨rfl, rfl⟩ : k = key ∧ l' = l.recordUsed ⟨key, value, location⟩ := by
    obtain ⟨hok, hbooks⟩ := Prod.mk.inj hrun
    exact ⟨(Except.ok.inj hok).symm, hbooks.symm⟩
  refine ⟨?_, hkey⟩
  rw [Ledger.recordUsed]
  split_ifs
  · exact hl
  · refine ⟨hl.generated, hl.extracted, fun r hr => ?_⟩
    rcases mem_append.mp hr with hr | hr
    · exact hl.used r hr
    · obtain rfl := mem_singleton.mp hr
      exact hkey

lemma gives_resolveKnown (hpolicy : policy.IsPlain) {entry : Entry} (hentry : entry.primary.isEncodable)
    (hvalue : strict → value.isEncodable) :
    Gives (Ledger.IsPlain strict) (resolveKnown policy entry value location)
      fun key => value.isEncodable = true → key.isEncodable = true := by
  rw [resolveKnown]
  cases honConflict : policy.onConflict with
  | keep => exact (gives_giveKnown hentry).imp fun key hkey _ => hkey
  | mint =>
    simp only [hpolicy.generate_eq]
    exact gives_giveNew hvalue
  | ask decide => exact absurd honConflict (hpolicy.onConflict_ne decide)

/-- A new key is the message text, if no function of the caller makes keys and those before are the
texts that they were minted for. -/
lemma runs_resolveNew (hpolicy : policy.IsPlain) {l l' : Ledger} (hl : ∀ x ∈ l.generated, x.2 = .name x.1)
    (hrun : Runs (resolveNew policy value location) l key l') :
    ∃ generated, (∀ x ∈ generated, x.2 = .name x.1) ∧
      Runs (giveNew value location (.name value)) { l with generated := generated } key l' := by
  rw [resolveNew] at hrun
  obtain ⟨books, m, hget, hnext⟩ := runs_bind.mp hrun
  obtain ⟨rfl, rfl⟩ : books = l ∧ m = l := by
    obtain ⟨hok, hbooks⟩ := Prod.mk.inj hget
    exact ⟨(Except.ok.inj hok).symm, hbooks.symm⟩
  cases hlookup : m.generated.lookup value with
  | some key' =>
    rw [hlookup] at hnext
    obtain rfl : key' = .name value := hl _ (mem_of_lookup hlookup)
    exact ⟨m.generated, hl, hnext⟩
  | none =>
    rw [hlookup, hpolicy.generate_eq] at hnext
    obtain ⟨key', m', hmint, hrecord⟩ := runs_bind.mp hnext
    obtain ⟨rfl, rfl⟩ := runs_pure.mp hmint
    obtain ⟨_, m'', hmodify, hgive⟩ := runs_bind.mp hrecord
    obtain ⟨-, rfl⟩ := Prod.mk.inj hmodify
    refine ⟨put m'.generated value (.name value), fun x hx => ?_, hgive⟩
    rcases mem_put hx with rfl | hx
    · rfl
    · exact hl x hx

/-- The key of a text that the catalogue does not know. -/
lemma gives_resolveNew (hpolicy : policy.IsPlain) (hvalue : strict → value.isEncodable) :
    Gives (Ledger.IsPlain strict) (resolveNew policy value location)
      fun key => value.isEncodable = true → key.isEncodable = true := by
  intro l key l' hrun hl
  obtain ⟨generated, hgenerated, hgive⟩ := runs_resolveNew hpolicy hl.generated hrun
  exact gives_giveNew hvalue _ _ _ hgive ⟨hgenerated, hl.extracted, hl.used⟩

/-- **The key of a phrase** can be written out if the phrase can. -/
theorem gives_resolveKey (hpolicy : policy.IsPlain) {catalogue : Catalogue}
    (hcatalogue : catalogue.IsEncodable) {full : Text}
    (hfull : strict → (d.phrase? full).isSome → full.isEncodable) :
    Gives (Ledger.IsPlain strict) (resolveKey d policy catalogue location full)
      fun key => ∀ k ∈ key, (d.phrase? full).isSome ∧
        (full.isEncodable → k.isEncodable) := by
  rw [resolveKey]
  cases hphrase : d.phrase? full with
  | none => exact .pure fun k hk => absurd hk (by simp)
  | some p =>
    have hvalue : full.isEncodable → (canonicalize p.payload).isEncodable := fun h =>
      isEncodable_canonicalize (isEncodable_of_subset (d.payload_subset_of_phrase? hphrase) h)
    have hstrict : strict → (canonicalize p.payload).isEncodable := fun h =>
      hvalue (hfull h (by rw [hphrase]; rfl))
    have hsome : ∀ key : Key, ((canonicalize p.payload).isEncodable → key.isEncodable) →
        ∀ k ∈ some key, (some p).isSome ∧ (full.isEncodable → k.isEncodable) := by
      intro key hkey k hk
      obtain rfl := mem_some.mp hk
      exact ⟨rfl, fun h => hkey (hvalue h)⟩
    simp only
    cases hlookup : catalogue.lookup (canonicalize p.payload) with
    | some entry =>
      exact Gives.bind (gives_resolveKnown hpolicy (hcatalogue _ (mem_of_lookup hlookup)) hstrict)
        fun key hkey => .pure (hsome key hkey)
    | none =>
      exact Gives.bind (gives_resolveNew hpolicy hstrict) fun key hkey => .pure (hsome key hkey)

end Keys

end Phrasebook
