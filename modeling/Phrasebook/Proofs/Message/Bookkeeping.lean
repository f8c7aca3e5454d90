import Mathlib.Logic.Basic
import Phrasebook.Conversion.Outcome
import Phrasebook.Site.Literal

/-!
# Steps that keep books

A step that keeps books takes a ledger and gives a result and a new ledger, or fails. `Runs` says
that it does not fail. Phrases get their keys through such steps.

## Main results

* `runs_bind`, `runs_pure`, `runs_ofExcept` — how steps that are put together are taken apart, so that no
  later proof has to open the monad.
* `resolution_resolvePhrases` — the phrases that get a key are some of those that were asked for, in their
  order, and a phrase that gets none leaves no trace in the books.
-/

namespace Phrasebook

variable {catalogue : Catalogue} {key : Option Key} {l l' : Ledger} {location : Location}
  {policy : KeyPolicy}

/-! ## Computations that do not fail -/

section Except

variable {ε ε' α β : Type} {x : Except ε α}

lemma eq_ok_of_mapError {f : ε → ε'} {a : α} (h : x.mapError f = .ok a) : x = .ok a := by
  cases x with
  | error e => cases h
  | ok a' =>
    cases h
    rfl

lemma exists_ok_of_map {f : α → β} {b : β} (h : x.map f = .ok b) : ∃ a, x = .ok a ∧ f a = b := by
  cases x with
  | error e => cases h
  | ok a => exact ⟨a, rfl, Except.ok.inj h⟩

lemma exists_ok_of_bind {f : α → Except ε β} {b : β} (h : (x >>= f) = .ok b) :
    ∃ a, x = .ok a ∧ f a = .ok b := by
  cases x with
  | error e => cases h
  | ok a => exact ⟨a, rfl, h⟩

/-- What can be computed of a result holds of a result. -/
lemma exists_ok_of_any {p : α → Bool} (h : x.toOption.any p) : ∃ a, x = .ok a ∧ p a := by
  cases x with
  | error e => cases h
  | ok a => exact ⟨a, rfl, h⟩

end Except

/-! ## Runs -/

/-- Two steps that may fail and work on a state: the second is not made if the first fails. -/
theorem run_bind {ε σ α β : Type} {s : σ} (x : ExceptT ε (StateM σ) α) (f : α → ExceptT ε (StateM σ) β) :
    (x >>= f).run.run s =
      match x.run.run s with
      | (.ok a, m) => (f a).run.run m
      | (.error failure, m) => (.error failure, m) := by
  show (ExceptT.bindCont (fun a => f a) (x.run.run s).1).run (x.run.run s).2 = _
  rcases x.run.run s with ⟨_ | _, _⟩ <;> rfl

section State

variable {ε σ α : Type} {s : σ}

lemma run_get_bind (f : σ → ExceptT ε (StateM σ) α) : (get >>= f).run.run s = (f s).run.run s := rfl

lemma run_modify_bind (g : σ → σ) (x : ExceptT ε (StateM σ) α) :
    (modify g >>= fun _ => x).run.run s = x.run.run (g s) := rfl

end State

/-- `Runs x l a l'`: from the books `l` the step `x` gives `a`, and the books are then `l'`. -/
def Runs {α : Type} (x : Bookkeeping α) (l : Ledger) (a : α) (l' : Ledger) : Prop :=
  x.run.run l = (.ok a, l')

section Runs

variable {α β : Type} {l l' : Ledger}

/-- A step that does nothing. -/
@[simp]
theorem runs_pure {a b : α} : Runs (pure a) l b l' ↔ b = a ∧ l' = l := by
  constructor
  · intro h
    obtain ⟨hok, rfl⟩ := Prod.mk.inj h
    exact ⟨(Except.ok.inj hok).symm, rfl⟩
  · rintro ⟨rfl, rfl⟩
    rfl

@[simp]
lemma runs_throw {failure : Failure} {a : α} : ¬ Runs (throw failure) l a l' := by
  intro h
  cases (Prod.mk.inj h).1

/-- **A run of two steps** is a run of the first and then a run of the second. -/
theorem runs_bind {x : Bookkeeping α} {f : α → Bookkeeping β} {b : β} :
    Runs (x >>= f) l b l' ↔ ∃ a m, Runs x l a m ∧ Runs (f a) m b l' := by
  simp only [Runs, run_bind]
  rcases x.run.run l with ⟨failure | a, m⟩
  · constructor
    · intro h
      cases h
    · rintro ⟨a, m', h, -⟩
      cases h
  · constructor
    · intro h
      exact ⟨a, m, rfl, h⟩
    · rintro ⟨a', m', hx, h⟩
      cases hx
      exact h

/-- A step that may fail. -/
@[simp]
theorem runs_ofExcept {x : Except Failure α} {a : α} :
    Runs (.ofExcept x) l a l' ↔ x = .ok a ∧ l' = l := by
  cases x with
  | error failure => simp [Bookkeeping.ofExcept]
  | ok b => simp [Bookkeeping.ofExcept, eq_comm]

/-- A run of two steps whose results are put together. -/
lemma runs_bind_bind_pure {γ : Type} {x : Bookkeeping α} {y : α → Bookkeeping β} {f : α → β → γ} {c : γ}
    (h : Runs (x >>= fun a => y a >>= fun b => pure (f a b)) l c l') :
    ∃ a m b, Runs x l a m ∧ Runs (y a) m b l' ∧ c = f a b := by
  obtain ⟨a, m, hx, h⟩ := runs_bind.mp h
  obtain ⟨b, m', hy, h⟩ := runs_bind.mp h
  obtain ⟨rfl, rfl⟩ := runs_pure.mp h
  exact ⟨a, m, b, hx, hy, rfl⟩

/-- A step that does not touch the books. -/
lemma runs_ofExcept_bind {x : Except Failure α} {f : α → Bookkeeping β} {b : β} :
    Runs (.ofExcept x >>= f) l b l' ↔ ∃ a, x = .ok a ∧ Runs (f a) l b l' := by
  rw [runs_bind]
  constructor
  · rintro ⟨a, m, hx, h⟩
    obtain ⟨hok, rfl⟩ := runs_ofExcept.mp hx
    exact ⟨a, hok, h⟩
  · rintro ⟨a, hx, h⟩
    exact ⟨a, l, runs_ofExcept.mpr ⟨hx, rfl⟩, h⟩

/-- Whether a step does not fail, and its result and the books pass a test. -/
def passes (x : Bookkeeping α) (l : Ledger) (test : α → Ledger → Bool) : Bool :=
  match x.run.run l with
  | (.ok a, l') => test a l'
  | (.error _, _) => false

/-- What can be computed of a run holds of a run. -/
lemma exists_runs_of_passes {x : Bookkeeping α} {test : α → Ledger → Bool} (h : passes x l test) :
    ∃ a l', Runs x l a l' ∧ test a l' := by
  rw [passes] at h
  rcases hrun : x.run.run l with ⟨failure | a, l'⟩
  · rw [hrun] at h
    cases h
  · rw [hrun] at h
    exact ⟨a, l', hrun, h⟩

end Runs

/-! ## Phrases and their keys -/

/-- **A phrase gets a key, or nothing is recorded.** -/
theorem runs_resolveKey {d : Delimiter} {full : Text}
    (h : Runs (resolveKey d policy catalogue location full) l key l') :
    (key = none ∧ l' = l) ∨ ((d.phrase? full).isSome ∧ key.isSome) := by
  rw [resolveKey] at h
  split at h
  · exact .inl (runs_pure.mp h)
  · rename_i phrase hphrase
    refine .inr ⟨by rw [hphrase]; rfl, ?_⟩
    simp only at h
    split at h
    · obtain ⟨k, m, -, hpure⟩ := runs_bind.mp h
      rw [(runs_pure.mp hpure).1]
      rfl
    · obtain ⟨k, m, -, hpure⟩ := runs_bind.mp h
      rw [(runs_pure.mp hpure).1]
      rfl

/-- `Resolution d phrases resolved l l'`: some of the phrases have got keys. -/
structure Resolution (d : Delimiter) (phrases : List Phrase) (resolved : List (Phrase × Key))
    (l l' : Ledger) : Prop where
  sublist : (resolved.map Prod.fst).Sublist phrases
  marked : ∀ x ∈ resolved, (d.phrase? x.1.full).isSome
  sparing : resolved = [] → l' = l

namespace Resolution

variable {d : Delimiter} {l m l' : Ledger} {phrases : List Phrase} {resolved : List (Phrase × Key)}

lemma nil (l : Ledger) : Resolution d [] [] l l :=
  ⟨List.Sublist.slnil, fun _ hx => absurd hx List.not_mem_nil, fun _ => rfl⟩

lemma cons {p : Phrase} (hkey : Runs (resolveKey d policy catalogue location p.full) l key m)
    (h : Resolution d phrases resolved m l') :
    Resolution d (p :: phrases) ((key.map fun k => (p, k)).toList ++ resolved) l l' := by
  rcases runs_resolveKey hkey with ⟨rfl, rfl⟩ | ⟨hphrase, hsome⟩
  · exact ⟨h.sublist.cons p, h.marked, h.sparing⟩
  · obtain ⟨k, rfl⟩ := Option.isSome_iff_exists.mp hsome
    refine ⟨h.sublist.cons_cons p, ?_, fun hnil => by simp at hnil⟩
    rintro x (_ | ⟨_, hx⟩)
    · exact hphrase
    · exact h.marked x hx

end Resolution

/-- **The phrases of a literal get their keys.** -/
theorem resolution_resolvePhrases (e : Extractor) (location : Location) {phrases : List Phrase}
    {resolved : List (Phrase × Key)} (h : Runs (e.resolvePhrases location phrases) l resolved l') :
    Resolution e.delimiter phrases resolved l l' := by
  induction phrases generalizing l resolved with
  | nil =>
    obtain ⟨rfl, rfl⟩ := runs_pure.mp h
    exact .nil _
  | cons p rest ih =>
    rw [Extractor.resolvePhrases] at h
    obtain ⟨key, m, others, hkey, hothers, rfl⟩ := runs_bind_bind_pure h
    exact .cons hkey (ih hothers)

end Phrasebook
