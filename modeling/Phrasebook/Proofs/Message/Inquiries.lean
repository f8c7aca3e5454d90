import Mathlib.Data.List.Pairwise
import Mathlib.Tactic.SplitIfs
import Phrasebook.Proofs.Assoc
import Phrasebook.Proofs.Message.Bookkeeping

/-!
# The books after any number of inquiries

One phrase after the other is given its key, all on the same books. There are six ways in which this
can end, and `Served` tells for each of them what is answered and what is written down. What holds of
the books at any time follows from what each of these ways does to them.

The key generator may remember its calls. So may the caller who decides conflicts: an inquiry comes
with its own decision, and the decisions of fixed options are those that are the same for all
inquiries.

## Main results

* `served_serve` — an inquiry ends in one of the six ways.
* `Served.isOrderly`, `Served.appends`, `Served.recorded`, `Served.keeps_key` — what each way keeps.
* `serveAll_bookkeeping` — nothing is written twice or changed, every key that is given out is on record,
  and a text that the catalogue does not know is brought to the key generator once and keeps its key.
-/

namespace Phrasebook

open List Option

variable {i : Inquiry} {key : Key} {l : Ledger} {r s : Record} {v : Text} {entry : Entry}

/-! ## Lists without repetition -/

section Enter

variable {α : Type} (alike : α → α → Bool)

/-- A list with an element at its end, unless one like it is there. -/
def enter (l : List α) (a : α) : List α := if l.any fun old => alike old a then l else l ++ [a]

/-- What is on record stays. -/
lemma prefix_enter (l : List α) (a : α) : l <+: enter alike l a := by
  rw [enter]
  split_ifs
  · exact prefix_refl l
  · exact prefix_append l [a]

/-- Afterwards there is an element like the one that was to be entered. -/
lemma exists_mem_enter (l : List α) {a : α} (ha : alike a a) :
    ∃ b ∈ enter alike l a, alike b a := by
  rw [enter]
  split_ifs with h
  · exact any_eq_true.mp h
  · exact ⟨a, by simp, ha⟩

/-- Nothing is recorded twice. -/
lemma pairwise_enter {l : List α} (h : l.Pairwise fun a b => alike a b = false) (a : α) :
    (enter alike l a).Pairwise fun a b => alike a b = false := by
  rw [enter]
  split_ifs with hany
  · exact h
  · refine pairwise_append.mpr ⟨h, pairwise_singleton _ _, fun b hb c hc => ?_⟩
    obtain rfl := mem_singleton.mp hc
    by_contra hne
    exact hany (any_eq_true.mpr ⟨b, hb, by simpa using hne⟩)

end Enter

namespace Record

/-- Whether two records are of one key and one text. -/
def sameKey (r s : Record) : Bool := r.key == s.key && r.value == s.value

/-- Whether two records are of one key and one text in one file. -/
def sameUse (r s : Record) : Bool :=
  r.key == s.key && r.value == s.value && r.location.file == s.location.file

lemma sameKey_iff : r.sameKey s ↔ r.key = s.key ∧ r.value = s.value := by
  simp [sameKey]

lemma sameUse_iff : r.sameUse s ↔
    r.key = s.key ∧ r.value = s.value ∧ r.location.file = s.location.file := by
  simp [sameUse, and_assoc]

end Record

namespace Ledger

lemma recordExtracted_eq (l : Ledger) (r : Record) :
    l.recordExtracted r = { l with extracted := enter Record.sameKey l.extracted r } := by
  show (if l.extracted.any (fun old => old.sameKey r) then _ else _) = _
  rw [enter]
  cases l.extracted.any fun old => old.sameKey r <;> rfl

lemma recordUsed_eq (l : Ledger) (r : Record) :
    l.recordUsed r = { l with used := enter Record.sameUse l.used r } := by
  show (if l.used.any (fun old => old.sameUse r) then _ else _) = _
  rw [enter]
  cases l.used.any fun old => old.sameUse r <;> rfl

end Ledger

/-! ## Inquiries -/

/-- A phrase that is to get its key. -/
structure Inquiry where
  full : Text
  location : Location
  /-- What happens this time if the catalogue knows its text. -/
  onConflict : ConflictPolicy

/-- The message text of an inquiry, if the delimiter marks a phrase in it. -/
def Inquiry.value? (d : Delimiter) (i : Inquiry) : Option Text :=
  (d.phrase? i.full).map fun p => canonicalize p.payload

variable (d : Delimiter) (catalogue : Catalogue) (generate : Option KeyGenerator)

/-- The answer to an inquiry, and the books afterwards. -/
def serve (l : Ledger) (i : Inquiry) : Except Failure (Option Key) × Ledger :=
  (resolveKey d ⟨generate, i.onConflict⟩ catalogue i.location i.full).run.run l

/-- The books after several inquiries. If one of them fails, the next one finds the books as they
were left. -/
def serveAll (l : Ledger) (inquiries : List Inquiry) : Ledger :=
  inquiries.foldl (fun l i => (serve d catalogue generate l i).2) l

/-- Whether each of several inquiries is answered. -/
def AllAnswered (l : Ledger) : List Inquiry → Prop
  | [] => True
  | i :: rest =>
    (∃ key, (serve d catalogue generate l i).1 = .ok key) ∧
      AllAnswered (serve d catalogue generate l i).2 rest

/-- `Asked l v i requests`: the calls of the key generator are those of the books `l`, possibly with
one more for the text `v` of the inquiry `i`. -/
def Asked (l : Ledger) (v : Text) (i : Inquiry) (requests : List KeyRequest) : Prop :=
  requests = l.requests ∨ requests = (v, i.location.file) :: l.requests

/-- **The ways in which an inquiry can end**: what is answered, and the books afterwards. -/
inductive Served (l : Ledger) (i : Inquiry) : Except Failure (Option Key) → Ledger → Prop where
  /-- No phrase is marked. -/
  | unmarked (hv : i.value? d = none) : Served l i (.ok none) l
  /-- The catalogue knows the text, and a known key is given out. -/
  | known {v : Text} {entry : Entry} {key : Key} (hv : i.value? d = some v)
      (hentry : catalogue.lookup v = some entry)
      (hkeep : i.onConflict = .keep → key = entry.primary) :
    Served l i (.ok (some key)) (l.recordUsed ⟨key, v, i.location⟩)
  /-- The catalogue knows the text, and yet a new key is given out. -/
  | renamed {v : Text} {entry : Entry} {key : Key} {requests : List KeyRequest}
      (hv : i.value? d = some v) (hentry : catalogue.lookup v = some entry)
      (hkeep : i.onConflict ≠ .keep) (hasked : Asked l v i requests) :
    Served l i (.ok (some key))
      (({ l with requests := requests } : Ledger).recordExtracted ⟨key, v, i.location⟩)
  /-- A key has been minted for the text before. -/
  | again {v : Text} {key : Key} (hv : i.value? d = some v) (hentry : catalogue.lookup v = none)
      (hkey : l.generated.lookup v = some key) :
    Served l i (.ok (some key)) (l.recordExtracted ⟨key, v, i.location⟩)
  /-- A key is minted for the text. -/
  | minted {v : Text} {key : Key} {requests : List KeyRequest} (hv : i.value? d = some v)
      (hentry : catalogue.lookup v = none) (hkey : l.generated.lookup v = none)
      (hasked : Asked l v i requests) :
    Served l i (.ok (some key))
      (({ l with requests := requests, generated := put l.generated v key } : Ledger).recordExtracted
        ⟨key, v, i.location⟩)
  /-- A function of the caller refuses. -/
  | refused {v : Text} {failure : Failure} {requests : List KeyRequest} (hv : i.value? d = some v)
      (hkey : catalogue.lookup v = none → l.generated.lookup v = none)
      (hasked : Asked l v i requests) :
    Served l i (.error failure) { l with requests := requests }

/-- Minting a key: the generator is called at most once, and nothing else in the books changes. -/
lemma run_mintKey (l : Ledger) (v : Text) (i : Inquiry) :
    ∃ requests, Asked l v i requests ∧
      ((∃ key, (mintKey generate v i.location).run.run l =
          (.ok key, { l with requests := requests })) ∨
        ∃ failure, (mintKey generate v i.location).run.run l =
          (.error failure, { l with requests := requests })) := by
  cases generate with
  | none => exact ⟨l.requests, .inl rfl, .inl ⟨.name v, rfl⟩⟩
  | some g =>
    refine ⟨(v, i.location.file) :: l.requests, .inr rfl, ?_⟩
    have hrun : (mintKey (some g) v i.location).run.run l =
        ((g l.requests (v, i.location.file)).mapError Failure.refused,
          { l with requests := (v, i.location.file) :: l.requests }) := by
      simp only [mintKey, run_get_bind, run_modify_bind]
      cases g l.requests (v, i.location.file) <;> rfl
    rw [hrun]
    cases g l.requests (v, i.location.file) with
    | ok key => exact .inl ⟨key, rfl⟩
    | error reason => exact .inr ⟨.refused reason, rfl⟩

variable {d catalogue generate}

/-- How an inquiry about a known text ends. -/
lemma served_resolveKnown (hv : i.value? d = some v) (hentry : catalogue.lookup v = some entry) :
    let run := (resolveKnown ⟨generate, i.onConflict⟩ entry v i.location).run.run l
    Served d catalogue l i (run.1.map some) run.2 := by
  intro run
  rw [show run = (resolveKnown ⟨generate, i.onConflict⟩ entry v i.location).run.run l from rfl,
    resolveKnown]
  cases hpolicy : i.onConflict with
  | keep => exact .known hv hentry fun _ => rfl
  | mint =>
    obtain ⟨requests, hasked, ⟨key, hrun⟩ | ⟨failure, hrun⟩⟩ := run_mintKey generate l v i
    · simp only [run_bind, hrun]
      exact .renamed hv hentry (by simp [hpolicy]) hasked
    · simp only [run_bind, hrun]
      exact .refused hv (by simp [hentry]) hasked
  | ask decide =>
    have hne : i.onConflict ≠ .keep := by simp [hpolicy]
    simp only
    cases decide ⟨entry.primary, v, i.location, entry.keys⟩ with
    | error reason => exact .refused hv (by simp [hentry]) (.inl rfl)
    | ok decision =>
      cases decision with
      | none => exact .known hv hentry fun h => absurd h hne
      | some key =>
        simp only
        split_ifs
        · exact .known hv hentry fun h => absurd h hne
        · exact .renamed hv hentry hne (.inl rfl)

/-- A text that the catalogue does not know gets its key. -/
lemma served_resolveNew (hv : i.value? d = some v) (hentry : catalogue.lookup v = none) :
    let run := (resolveNew ⟨generate, i.onConflict⟩ v i.location).run.run l
    Served d catalogue l i (run.1.map some) run.2 := by
  intro run
  have hrun : run = (resolveNew ⟨generate, i.onConflict⟩ v i.location).run.run l := rfl
  rw [resolveNew, run_get_bind] at hrun
  rw [hrun]
  cases hkey : l.generated.lookup v with
  | some key => exact .again hv hentry hkey
  | none =>
    obtain ⟨requests, hasked, ⟨key, hmint⟩ | ⟨failure, hmint⟩⟩ := run_mintKey generate l v i
    · simp only [run_bind, hmint]
      exact .minted hv hentry hkey hasked
    · simp only [run_bind, hmint]
      exact .refused hv (fun _ => hkey) hasked

/-- **Every inquiry ends in one of these ways.** -/
theorem served_serve (l : Ledger) (i : Inquiry) :
    Served d catalogue l i (serve d catalogue generate l i).1 (serve d catalogue generate l i).2 := by
  have hsome : ∀ x : Bookkeeping Key, (do return some (← x) : Bookkeeping (Option Key)).run.run l =
      ((x.run.run l).1.map some, (x.run.run l).2) := by
    intro x
    rw [run_bind]
    rcases x.run.run l with ⟨failure | key, m⟩ <;> rfl
  rw [serve, resolveKey]
  cases hphrase : d.phrase? i.full with
  | none => exact .unmarked (by simp [Inquiry.value?, hphrase])
  | some p =>
    have hv : i.value? d = some (canonicalize p.payload) := by simp [Inquiry.value?, hphrase]
    simp only
    cases hentry : catalogue.lookup (canonicalize p.payload) with
    | some entry =>
      simp only [hsome]
      exact served_resolveKnown hv hentry
    | none =>
      simp only [hsome]
      exact served_resolveNew hv hentry

/-! ## What one inquiry does to the books -/

/-- Books in which no record is there twice, and in which every minted key is on record and stands for
a text that the catalogue does not know. -/
structure Ledger.IsOrderly (catalogue : Catalogue) (l : Ledger) : Prop where
  /-- No two records of new keys are of one key and one text. -/
  extracted_once : l.extracted.Pairwise fun r s => ¬ (r.key = s.key ∧ r.value = s.value)
  /-- No two records of known keys are of one key and one text in one file. -/
  used_once : l.used.Pairwise fun r s =>
    ¬ (r.key = s.key ∧ r.value = s.value ∧ r.location.file = s.location.file)
  /-- Keys are minted for texts that the catalogue does not know. -/
  generated_unknown : ∀ v key, (v, key) ∈ l.generated → catalogue.lookup v = none
  generated_recorded : ∀ v key, (v, key) ∈ l.generated →
    ∃ r ∈ l.extracted, r.key = key ∧ r.value = v

namespace Ledger

variable {l : Ledger}

lemma isOrderly_empty (earlier : List KeyRequest) :
    IsOrderly catalogue ({ requests := earlier } : Ledger) := by
  constructor <;> simp

/-- A key is on record once it has been recorded. -/
lemma exists_recordExtracted (l : Ledger) (key : Key) (v : Text) (location : Location) :
    ∃ r ∈ (l.recordExtracted ⟨key, v, location⟩).extracted, r.key = key ∧ r.value = v := by
  rw [recordExtracted_eq]
  obtain ⟨r, hr, hsame⟩ := exists_mem_enter Record.sameKey l.extracted
    (Record.sameKey_iff.mpr ⟨rfl, rfl⟩ : Record.sameKey ⟨key, v, location⟩ ⟨key, v, location⟩)
  exact ⟨r, hr, Record.sameKey_iff.mp hsame⟩

/-- A known key is on record once it has been recorded. -/
lemma exists_recordUsed (l : Ledger) (key : Key) (v : Text) (location : Location) :
    ∃ r ∈ (l.recordUsed ⟨key, v, location⟩).used,
      r.key = key ∧ r.value = v ∧ r.location.file = location.file := by
  rw [recordUsed_eq]
  obtain ⟨r, hr, hsame⟩ := exists_mem_enter Record.sameUse l.used
    (Record.sameUse_iff.mpr ⟨rfl, rfl, rfl⟩ :
      Record.sameUse ⟨key, v, location⟩ ⟨key, v, location⟩)
  exact ⟨r, hr, Record.sameUse_iff.mp hsame⟩

/-- Recording a new key leaves the books orderly, also if that key has just been minted for a text
that the catalogue does not know. -/
lemma IsOrderly.recordExtracted (h : l.IsOrderly catalogue) {requests : List KeyRequest}
    {generated : List (Text × Key)}
    (hgenerated : ∀ v key, (v, key) ∈ generated → (v, key) ∈ l.generated ∨
      (catalogue.lookup v = none ∧ key = r.key ∧ v = r.value)) :
    (({ l with requests := requests, generated := generated } : Ledger).recordExtracted r).IsOrderly
      catalogue := by
  rw [recordExtracted_eq]
  refine ⟨?_, h.used_once, fun v key hmem => ?_, fun v key hmem => ?_⟩
  · have honce := h.extracted_once.imp (S := fun r s => r.sameKey s = false) fun hne => by
      simpa using mt Record.sameKey_iff.mp hne
    exact (pairwise_enter Record.sameKey honce r).imp fun hne hsame => by
      simp [Record.sameKey_iff.mpr hsame] at hne
  · rcases hgenerated v key hmem with hold | ⟨hnone, -, -⟩
    · exact h.generated_unknown v key hold
    · exact hnone
  · rcases hgenerated v key hmem with hold | ⟨-, rfl, rfl⟩
    · obtain ⟨s, hs, hsame⟩ := h.generated_recorded v key hold
      exact ⟨s, (prefix_enter Record.sameKey l.extracted r).subset hs, hsame⟩
    · obtain ⟨s, hs, hsame⟩ := exists_mem_enter Record.sameKey l.extracted
        (Record.sameKey_iff.mpr ⟨rfl, rfl⟩ : r.sameKey r)
      exact ⟨s, hs, Record.sameKey_iff.mp hsame⟩

lemma IsOrderly.recordUsed (h : l.IsOrderly catalogue) (r : Record) :
    (l.recordUsed r).IsOrderly catalogue := by
  rw [recordUsed_eq]
  refine ⟨h.extracted_once, ?_, h.generated_unknown, h.generated_recorded⟩
  have honce := h.used_once.imp (S := fun r s => r.sameUse s = false) fun hne => by
    simpa using mt Record.sameUse_iff.mp hne
  exact (pairwise_enter Record.sameUse honce r).imp fun hne hsame => by
    simp [Record.sameUse_iff.mpr hsame] at hne

end Ledger

/-- How often a text has been brought to the key generator, and once more if it still may be: no key
has been minted for it. -/
def allowance (v : Text) (l : Ledger) : Nat :=
  l.requests.countP (fun q => q.1 == v) + if (l.generated.lookup v).isSome then 0 else 1

namespace Served

variable {l l' : Ledger} {i : Inquiry} {answer : Except Failure (Option Key)}

/-- **An inquiry leaves the books orderly.** -/
theorem isOrderly (h : Served d catalogue l i answer l') (horderly : l.IsOrderly catalogue) :
    l'.IsOrderly catalogue := by
  cases h with
  | unmarked hv => exact horderly
  | known hv hentry hkeep => exact horderly.recordUsed _
  | renamed hv hentry hkeep hasked | again hv hentry hkey =>
    exact horderly.recordExtracted fun v key hmem => .inl hmem
  | minted hv hentry hkey hasked =>
    refine horderly.recordExtracted fun v key hmem => ?_
    rcases mem_put hmem with hnew | hold
    · obtain ⟨rfl, rfl⟩ := Prod.mk.inj hnew
      exact .inr ⟨hentry, rfl, rfl⟩
    · exact .inl hold
  | refused hv hkey hasked => exact ⟨horderly.1, horderly.2, horderly.3, horderly.4⟩

/-- **An inquiry appends records** and does nothing else to those that are there. -/
theorem appends (h : Served d catalogue l i answer l') :
    l.extracted <+: l'.extracted ∧ l.used <+: l'.used := by
  cases h with
  | unmarked hv => exact ⟨prefix_refl _, prefix_refl _⟩
  | known hv hentry hkeep =>
    rw [Ledger.recordUsed_eq]
    exact ⟨prefix_refl _, prefix_enter _ _ _⟩
  | renamed hv hentry hkeep hasked | again hv hentry hkey | minted hv hentry hkey hasked =>
    rw [Ledger.recordExtracted_eq]
    exact ⟨prefix_enter _ _ _, prefix_refl _⟩
  | refused hv hkey hasked => exact ⟨prefix_refl _, prefix_refl _⟩

/-- **A key that is given out is on record**, as a new one or as a known one of that file. -/
theorem recorded (h : Served d catalogue l i (.ok (some key)) l') :
    ∃ v, i.value? d = some v ∧ ((∃ r ∈ l'.extracted, r.key = key ∧ r.value = v) ∨
      ∃ r ∈ l'.used, r.key = key ∧ r.value = v ∧ r.location.file = i.location.file) := by
  cases h with
  | known hv hentry hkeep => exact ⟨_, hv, .inr (l.exists_recordUsed _ _ _)⟩
  | renamed hv hentry hkeep hasked | again hv hentry hkey | minted hv hentry hkey hasked =>
    exact ⟨_, hv, .inl (Ledger.exists_recordExtracted _ _ _ _)⟩

/-- An inquiry without a phrase leaves no trace. -/
lemma eq_of_none (h : Served d catalogue l i (.ok none) l') : l' = l := by
  cases h with
  | unmarked hv => rfl

/-- What has been minted after an inquiry: what had been minted before, and possibly a key for the
text of the inquiry. -/
lemma generated_eq (h : Served d catalogue l i answer l') :
    l'.generated = l.generated ∨ ∃ v key, i.value? d = some v ∧ catalogue.lookup v = none ∧
      l.generated.lookup v = none ∧ answer = .ok (some key) ∧ l'.generated = put l.generated v key := by
  cases h with
  | unmarked hv => exact .inl rfl
  | known hv hentry hkeep => exact .inl (by rw [Ledger.recordUsed_eq])
  | renamed hv hentry hkeep hasked | again hv hentry hkey => exact .inl (by rw [Ledger.recordExtracted_eq])
  | minted hv hentry hkey hasked =>
    exact .inr ⟨_, _, hv, hentry, hkey, rfl, by rw [Ledger.recordExtracted_eq]⟩
  | refused hv hkey hasked => exact .inl rfl

/-- **A minted key stays** as it is. -/
theorem keeps_key (h : Served d catalogue l i answer l') (hkey : l.generated.lookup v = some key) :
    l'.generated.lookup v = some key := by
  rcases h.generated_eq with heq | ⟨v', key', -, -, hnew, -, heq⟩
  · rw [heq, hkey]
  · have hne : v ≠ v' := by
      rintro rfl
      simp [hnew] at hkey
    rw [heq, lookup_put, beq_false_of_ne hne]
    exact hkey

/-- The key of a text that the catalogue does not know is the minted one. -/
lemma key_of_unknown (h : Served d catalogue l i (.ok (some key)) l') (hv : i.value? d = some v)
    (hentry : catalogue.lookup v = none) : l'.generated.lookup v = some key := by
  cases h with
  | known hv' hentry' hkeep | renamed hv' hentry' hkeep hasked =>
    obtain rfl := some.inj (hv.symm.trans hv')
    cases hentry.symm.trans hentry'
  | again hv' hentry' hkey =>
    obtain rfl := some.inj (hv.symm.trans hv')
    rw [Ledger.recordExtracted_eq]
    exact hkey
  | minted hv' hentry' hkey hasked =>
    obtain rfl := some.inj (hv.symm.trans hv')
    rw [Ledger.recordExtracted_eq]
    simp [lookup_put]

/-- The key of a text that the catalogue knows is its primary one, if it is to be kept. -/
lemma key_of_kept (h : Served d catalogue l i (.ok (some key)) l') (hv : i.value? d = some v)
    (hentry : catalogue.lookup v = some entry) (hkeep : i.onConflict = .keep) : key = entry.primary := by
  cases h with
  | known hv' hentry' hkey =>
    obtain rfl := some.inj (hv.symm.trans hv')
    obtain rfl := some.inj (hentry.symm.trans hentry')
    exact hkey hkeep
  | renamed hv' hentry' hne hasked => exact absurd hkeep hne
  | again hv' hentry' hkey | minted hv' hentry' hkey hasked =>
    obtain rfl := some.inj (hv.symm.trans hv')
    cases hentry.symm.trans hentry'

/-- The calls of the key generator after an inquiry: at most one more, for the text of the inquiry; a
text for which a key has been minted is not brought to it again. -/
lemma asked (h : Served d catalogue l i answer l') :
    l'.requests = l.requests ∨ ∃ v, i.value? d = some v ∧
      (catalogue.lookup v = none → l.generated.lookup v = none) ∧
      l'.requests = (v, i.location.file) :: l.requests := by
  cases h with
  | unmarked hv => exact .inl rfl
  | known hv hentry hkeep => exact .inl (by rw [Ledger.recordUsed_eq])
  | renamed hv hentry hkeep hasked =>
    rw [Ledger.recordExtracted_eq]
    exact hasked.imp_right fun heq => ⟨_, hv, by simp [hentry], heq⟩
  | again hv hentry hkey => exact .inl (by rw [Ledger.recordExtracted_eq])
  | minted hv hentry hkey hasked =>
    rw [Ledger.recordExtracted_eq]
    exact hasked.imp_right fun heq => ⟨_, hv, fun _ => hkey, heq⟩
  | refused hv hkey hasked => exact hasked.imp_right fun heq => ⟨_, hv, hkey, heq⟩

/-- However an inquiry ends, a text that the catalogue does not know is not brought to the key generator
more often than it may be. -/
lemma count_le (h : Served d catalogue l i answer l') (hentry : catalogue.lookup v = none) :
    l'.requests.countP (fun q => q.1 == v) ≤ allowance v l := by
  rw [allowance]
  rcases h.asked with heq | ⟨v', hv', hnew, heq⟩
  · rw [heq]
    omega
  · rw [heq, countP_cons]
    by_cases hv : v' = v
    · subst hv
      simp [hnew hentry]
    · simp [hv]

/-- **An inquiry that is answered does not raise the allowance** of a text that the catalogue does not
know: the call that was still allowed is made when its key is minted. -/
theorem allowance_le {key : Option Key} (h : Served d catalogue l i (.ok key) l')
    (hentry : catalogue.lookup v = none) : allowance v l' ≤ allowance v l := by
  cases hkey : l.generated.lookup v with
  | some k =>
    -- the allowance is used up, and stays so
    have hcount := h.count_le hentry
    have hkey' := h.keeps_key hkey
    simpa [allowance, hkey, hkey'] using hcount
  | none =>
    rcases h.asked with heq | ⟨v', hv', -, heq⟩
    · have hle : (if (l'.generated.lookup v).isSome then 0 else 1) ≤ 1 := by split_ifs <;> omega
      simpa [allowance, heq, hkey] using hle
    · by_cases hv : v' = v
      · subst hv
        -- the call is made, and the key minted
        cases key with
        | none => simp [h.eq_of_none]
        | some k =>
          have hkey' := h.key_of_unknown hv' hentry
          simp [allowance, heq, hkey, hkey']
      · have hle : (if (l'.generated.lookup v).isSome then 0 else 1) ≤ 1 := by split_ifs <;> omega
        simpa [allowance, heq, hkey, hv] using hle

end Served

/-! ## Whole runs -/

lemma serveAll_append (l : Ledger) (inquiries more : List Inquiry) :
    serveAll d catalogue generate l (inquiries ++ more) =
      serveAll d catalogue generate (serveAll d catalogue generate l inquiries) more :=
  foldl_append

/-- What every inquiry keeps is kept by a run. -/
lemma serveAll_keeps {P : Ledger → Prop}
    (hstep : ∀ {l l' i answer}, Served d catalogue l i answer l' → P l → P l') (inquiries : List Inquiry)
    (h : P l) : P (serveAll d catalogue generate l inquiries) := by
  induction inquiries generalizing l with
  | nil => exact h
  | cons i rest ih => exact ih (hstep (served_serve l i) h)

/-- A run in which all inquiries are answered does not raise the allowance of a text that the catalogue
does not know. -/
lemma allowance_serveAll_le (hentry : catalogue.lookup v = none) {inquiries : List Inquiry}
    (h : AllAnswered d catalogue generate l inquiries) :
    allowance v (serveAll d catalogue generate l inquiries) ≤ allowance v l := by
  induction inquiries generalizing l with
  | nil => exact Nat.le_refl _
  | cons i rest ih =>
    obtain ⟨⟨key, hkey⟩, hrest⟩ := h
    have hserved : Served d catalogue l i (.ok key) (serve d catalogue generate l i).2 :=
      hkey ▸ served_serve l i
    exact Nat.le_trans (ih hrest) (hserved.allowance_le hentry)

/-- Two inquiries about one text are answered by one key, if the catalogue does not know the text, or if
the known key is to be kept both times. -/
lemma same_key {l' m m' : Ledger} {j : Inquiry} {key' : Key} (hi : i.value? d = some v)
    (hj : j.value? d = some v)
    (hentry : catalogue.lookup v = none ∨ i.onConflict = .keep ∧ j.onConflict = .keep)
    (hfirst : Served d catalogue l i (.ok (some key)) l') {between : List Inquiry}
    (hbetween : m = serveAll d catalogue generate l' between)
    (hsecond : Served d catalogue m j (.ok (some key')) m') : key' = key := by
  cases hcatalogue : catalogue.lookup v with
  | none =>
    have hminted := hfirst.key_of_unknown hi hcatalogue
    have hkept : m.generated.lookup v = some key :=
      hbetween ▸ serveAll_keeps (P := fun l => l.generated.lookup v = some key)
        (fun h hkey => h.keeps_key hkey) between hminted
    exact some.inj ((hsecond.key_of_unknown hj hcatalogue).symm.trans
      (hsecond.keeps_key hkept))
  | some entry =>
    obtain ⟨hkeep, hkeep'⟩ := hentry.resolve_left (by simp [hcatalogue])
    rw [hfirst.key_of_kept hi hcatalogue hkeep, hsecond.key_of_kept hj hcatalogue hkeep']

variable (d catalogue generate)

/-- **The books are kept**, whatever the inquiries are and however often one of them is repeated.

* No record is made twice, minted keys are on record and stand for texts that the catalogue does not
  know, and later inquiries only append records.
* A key that is given out is on record, and an inquiry without a phrase changes nothing.
* A text that the catalogue does not know is brought to the key generator at most once, as long as no
  inquiry has failed, and all inquiries about it are answered by one key, even if the generator
  remembers its calls; so are those about a text that the catalogue knows and whose key is to be kept.

**Proof sketch.** Each part is what a single inquiry does to the books, carried through the run by
induction; for the number of calls the induction is on the allowance of the text. -/
theorem serveAll_bookkeeping (earlier : List KeyRequest) (inquiries : List Inquiry) :
    let start : Ledger := { requests := earlier }
    let books := serveAll d catalogue generate start
    let answer := fun l i => (serve d catalogue generate l i).1
    let l := books inquiries
    l.IsOrderly catalogue ∧
    (∀ more, l.extracted <+: (books (inquiries ++ more)).extracted ∧
      l.used <+: (books (inquiries ++ more)).used) ∧
    (∀ i key, answer l i = .ok (some key) → ∃ v, i.value? d = some v ∧
      ((∃ r ∈ (books (inquiries ++ [i])).extracted, r.key = key ∧ r.value = v) ∨
        ∃ r ∈ (books (inquiries ++ [i])).used,
          r.key = key ∧ r.value = v ∧ r.location.file = i.location.file)) ∧
    (∀ i, answer l i = .ok none → books (inquiries ++ [i]) = l) ∧
    (∀ v, catalogue.lookup v = none → AllAnswered d catalogue generate start inquiries →
      ∀ i, (books (inquiries ++ [i])).requests.countP (fun q => q.1 == v) ≤
        earlier.countP (fun q => q.1 == v) + 1) ∧
    ∀ v i j between key key', i.value? d = some v → j.value? d = some v →
      catalogue.lookup v = none ∨ i.onConflict = .keep ∧ j.onConflict = .keep →
      answer l i = .ok (some key) → answer (books (inquiries ++ i :: between)) j = .ok (some key') →
      key' = key := by
  intro start books answer l
  have hnext : ∀ i, books (inquiries ++ [i]) = (serve d catalogue generate l i).2 := fun i =>
    serveAll_append start inquiries [i]
  have hserved : ∀ {m i a}, answer m i = a →
      Served d catalogue m i a (serve d catalogue generate m i).2 := fun h => h ▸ served_serve _ _
  refine ⟨?_, fun more => ?_, fun i key hkey => ?_, fun i hnone => ?_, fun v hentry hall i => ?_, ?_⟩
  · exact serveAll_keeps (fun h => h.isOrderly) inquiries (Ledger.isOrderly_empty earlier)
  · rw [show books (inquiries ++ more) = serveAll d catalogue generate l more from
      serveAll_append start inquiries more]
    exact serveAll_keeps (P := fun m => l.extracted <+: m.extracted ∧ l.used <+: m.used)
      (fun h hm => ⟨hm.1.trans h.appends.1, hm.2.trans h.appends.2⟩) more
      ⟨prefix_refl _, prefix_refl _⟩
  · rw [hnext]
    exact (hserved hkey).recorded
  · rw [hnext]
    exact (hserved hnone).eq_of_none
  · rw [hnext]
    have hle := allowance_serveAll_le hentry hall
    exact Nat.le_trans ((served_serve l i).count_le hentry) hle
  · intro v i j between key key' hi hj hentry hkey hkey'
    have hbetween : books (inquiries ++ i :: between) =
        serveAll d catalogue generate (serve d catalogue generate l i).2 between :=
      serveAll_append start inquiries (i :: between)
    exact same_key hi hj hentry (hserved hkey) hbetween (hserved hkey')

/-- A generator that counts its calls is not asked again for a text that it has numbered. -/
theorem serveAll_bookkeeping_counting :
    let generate : Option KeyGenerator := some fun before _ => .ok (.number before.length)
    let i : Inquiry := ⟨"aa", ⟨"f.js", ⟨1, 0⟩⟩, .keep⟩
    let other : Inquiry := ⟨"a", ⟨"f.js", ⟨2, 0⟩⟩, .keep⟩
    let aa : Text := "aa"
    ∃ d, Delimiter.ofText "(a+)" = .ok d ∧ i.value? d = some aa ∧
      AllAnswered d [] generate {} [i, other] ∧
      (serve d [] generate {} i).1 = .ok (some (.number 0)) ∧
      (serve d [] generate (serveAll d [] generate {} [i, other]) i).1 = .ok (some (.number 0)) ∧
      (serveAll d [] generate {} [i, other, i]).requests.countP (fun q => q.1 == aa) ≤ 1 := by
  intro generate i other aa
  have hrun : (Delimiter.ofText "(a+)").toOption.any (fun d => i.value? d == some aa &&
      (serve d [] generate {} i).1.toOption.any (· == some (.number 0)) &&
      (serve d [] generate (serveAll d [] generate {} [i]) other).1.toOption.any (fun _ => true) &&
      (serve d [] generate (serveAll d [] generate {} [i, other]) i).1.toOption.any Option.isSome)
        = true := by decide +kernel
  obtain ⟨d, hd, hall⟩ := exists_ok_of_any hrun
  simp only [Bool.and_eq_true, beq_iff_eq] at hall
  obtain ⟨⟨⟨hvalue, hfirst⟩, hsecond⟩, hthird⟩ := hall
  obtain ⟨_, hfirst, hzero⟩ := exists_ok_of_any hfirst
  obtain ⟨_, hsecond, -⟩ := exists_ok_of_any hsecond
  obtain ⟨_, hthird, hsome⟩ := exists_ok_of_any hthird
  obtain rfl := eq_of_beq hzero
  obtain ⟨key, rfl⟩ := isSome_iff_exists.mp hsome
  have hall : AllAnswered d [] generate {} [i, other] := ⟨⟨_, hfirst⟩, ⟨_, hsecond⟩, trivial⟩
  obtain ⟨-, -, -, -, -, hsame⟩ := serveAll_bookkeeping d [] generate [] []
  obtain ⟨-, -, -, -, hcount, -⟩ := serveAll_bookkeeping d [] generate [] [i, other]
  obtain rfl := hsame aa i i [other] _ _ hvalue hvalue (.inl rfl) hfirst hthird
  exact ⟨d, hd, hvalue, hall, hfirst, hthird, hcount aa rfl hall i⟩

end Phrasebook
