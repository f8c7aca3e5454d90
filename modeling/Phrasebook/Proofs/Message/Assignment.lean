import Phrasebook.Proofs.Message.Inquiries

/-!
# Which phrases get keys, and what can keep them from it

## Main results

* `Assigned.cons` — one phrase after the other: those that are phrases when read again get keys, and
  these are on record.
* `failsBy_resolveKey` — only a function of the caller can keep a phrase from its key: the key generator,
  or the one that decides conflicts.
-/

namespace Phrasebook

open List

variable {key : Option Key} {p : Phrase} {reason : Failure → Prop}

/-- The keys on record. -/
def Ledger.keys (l : Ledger) : List Key := (l.extracted ++ l.used).map Record.key

/-- A phrase gets a key if it is one when read again, and keys on record stay. -/
lemma keys_of_runs_resolveKey {d : Delimiter} {policy : KeyPolicy} {catalogue : Catalogue}
    {location : Location} {full : Text} {l l' : Ledger}
    (h : Runs (resolveKey d policy catalogue location full) l key l') :
    key.isSome = (d.phrase? full).isSome ∧ l.keys ⊆ l'.keys ∧ ∀ k ∈ key, k ∈ l'.keys := by
  let i : Inquiry := ⟨full, location, policy.onConflict⟩
  have hserved : Served d catalogue l i (.ok key) l' := by
    have hserve : Served d catalogue l i (serve d catalogue policy.generate l i).1
        (serve d catalogue policy.generate l i).2 := served_serve l i
    rwa [show serve d catalogue policy.generate l i = (.ok key, l') from h] at hserve
  refine ⟨?_, ?_, ?_⟩
  · cases key with
    | none =>
      cases hserved with
      | unmarked hv =>
        have hnone : d.phrase? full = none := by simpa [Inquiry.value?] using hv
        rw [hnone]
        rfl
    | some k =>
      obtain ⟨v, hv, -⟩ := hserved.recorded
      obtain ⟨p, hp, -⟩ := Option.map_eq_some_iff.mp hv
      have hp' : d.phrase? full = some p := hp
      rw [hp']
      rfl
  · obtain ⟨hextracted, hused⟩ := hserved.appends
    intro k hk
    simp only [Ledger.keys, map_append, mem_append] at hk ⊢
    exact hk.imp (fun hk => (hextracted.map _).subset hk) fun hk => (hused.map _).subset hk
  · rintro k rfl
    obtain ⟨v, -, ⟨r, hr, rfl, -⟩ | ⟨r, hr, rfl, -⟩⟩ := hserved.recorded
    · exact mem_map_of_mem (mem_append_left _ hr)
    · exact mem_map_of_mem (mem_append_right _ hr)

/-- The phrases of a text that are phrases when read again. -/
def Delimiter.marked (d : Delimiter) (t : Text) : List Phrase :=
  (d.phrases t).filter fun p => (d.phrase? p.full).isSome

/-- `Assigned d phrases keys resolved`: the phrases that are phrases when read again have got keys. -/
structure Assigned (d : Delimiter) (phrases : List Phrase) (keys : List Key)
    (resolved : List (Phrase × Key)) : Prop where
  phrases_eq : resolved.map Prod.fst = phrases.filter fun p => (d.phrase? p.full).isSome
  keys_mem : ∀ x ∈ resolved, x.2 ∈ keys

namespace Assigned

variable {d : Delimiter} {phrases : List Phrase} {keys keys' : List Key}
  {resolved : List (Phrase × Key)}

lemma nil (keys : List Key) : Assigned d [] keys [] :=
  ⟨rfl, fun _ hx => absurd hx not_mem_nil⟩

lemma mono (hkeys : keys ⊆ keys') (h : Assigned d phrases keys resolved) :
    Assigned d phrases keys' resolved :=
  ⟨h.phrases_eq, fun x hx => hkeys (h.keys_mem x hx)⟩

/-- One more phrase. -/
theorem cons (hsome : key.isSome = (d.phrase? p.full).isSome)
    (hkey : ∀ k ∈ key, k ∈ keys) (h : Assigned d phrases keys resolved) :
    Assigned d (p :: phrases) keys ((key.map fun k => (p, k)).toList ++ resolved) := by
  cases key with
  | none =>
    refine ⟨?_, h.keys_mem⟩
    rw [filter_cons_of_neg (by rw [← hsome]; simp)]
    exact h.phrases_eq
  | some k =>
    refine ⟨?_, ?_⟩
    · rw [filter_cons_of_pos (by rw [← hsome]; rfl), ← h.phrases_eq]
      rfl
    · rintro x (_ | ⟨_, hx⟩)
      · exact hkey k rfl
      · exact h.keys_mem x hx

/-- A phrase that has got a key is one of those that were looked at. -/
lemma mem_phrases (h : Assigned d phrases keys resolved) {x : Phrase × Key} (hx : x ∈ resolved) :
    x.1 ∈ phrases ∧ (d.phrase? x.1.full).isSome := by
  have hmem : x.1 ∈ resolved.map Prod.fst := mem_map_of_mem hx
  rw [h.phrases_eq] at hmem
  exact mem_filter.mp hmem

/-- A phrase that is one when read again has got a key. -/
lemma exists_mem (h : Assigned d phrases keys resolved) (hp : p ∈ phrases)
    (hmarked : (d.phrase? p.full).isSome) : ∃ x ∈ resolved, x.1 = p := by
  have hmem : p ∈ resolved.map Prod.fst := by
    rw [h.phrases_eq]
    exact mem_filter.mpr ⟨hp, hmarked⟩
  exact mem_map.mp hmem

end Assigned

/-! ## Failures -/

/-- A step that fails for certain reasons only. -/
def FailsBy {α : Type} (reason : Failure → Prop) (x : Bookkeeping α) : Prop :=
  ∀ l failure l', x.run.run l = (.error failure, l') → reason failure

namespace FailsBy

variable {α β : Type} {reason : Failure → Prop}

lemma pure (a : α) : FailsBy reason (Pure.pure a : Bookkeeping α) := by
  intro l failure l' h
  cases (Prod.mk.inj h).1

lemma throw {failure : Failure} (h : reason failure) :
    FailsBy reason (MonadExcept.throw failure : Bookkeeping α) := by
  intro l failure' l' hrun
  cases (Prod.mk.inj hrun).1
  exact h

lemma bind {x : Bookkeeping α} {f : α → Bookkeeping β} (hx : FailsBy reason x)
    (hf : ∀ a, FailsBy reason (f a)) : FailsBy reason (x >>= f) := by
  intro l failure l' h
  rw [run_bind] at h
  rcases hrun : x.run.run l with ⟨failure' | a, m⟩
  · rw [hrun] at h
    cases h
    exact hx l failure _ hrun
  · rw [hrun] at h
    exact hf a m failure l' h

lemma get : FailsBy reason (MonadState.get : Bookkeeping Ledger) := by
  intro l failure l' h
  cases (Prod.mk.inj h).1

lemma modify (f : Ledger → Ledger) : FailsBy reason (modify f : Bookkeeping PUnit) := by
  intro l failure l' h
  cases (Prod.mk.inj h).1

lemma imp {reason' : Failure → Prop} (himp : ∀ failure, reason failure → reason' failure)
    {x : Bookkeeping α} (h : FailsBy reason x) : FailsBy reason' x :=
  fun l failure l' hrun => himp failure (h l failure l' hrun)

end FailsBy

/-- A function of the caller refuses a key. -/
inductive KeyPolicy.Refuses (policy : KeyPolicy) : Failure → Prop where
  /-- The key generator does. -/
  | generator {generate : KeyGenerator} {earlier : List KeyRequest} {request : KeyRequest}
      {reason : Text} (hgenerate : policy.generate = some generate)
      (hreason : generate earlier request = .error reason) : Refuses policy (.refused reason)
  /-- The function that decides conflicts does. -/
  | decision {decide : Conflict → Except Text (Option Key)} {conflict : Conflict} {reason : Text}
      (hdecide : policy.onConflict = .ask decide) (hreason : decide conflict = .error reason) :
    Refuses policy (.refused reason)

section Failures

variable (policy : KeyPolicy) (value : Text) (location : Location)

lemma failsBy_giveNew (key : Key) : FailsBy reason (giveNew value location key) :=
  (FailsBy.modify _).bind fun _ => .pure _

lemma failsBy_giveKnown (key : Key) : FailsBy reason (giveKnown value location key) :=
  (FailsBy.modify _).bind fun _ => .pure _

/-- A key is minted unless the generator refuses. -/
lemma failsBy_mintKey : FailsBy policy.Refuses (mintKey policy.generate value location) := by
  cases hgenerate : policy.generate with
  | none => exact .pure _
  | some generate =>
    rw [mintKey]
    refine FailsBy.get.bind fun l => (FailsBy.modify _).bind fun _ => ?_
    cases hkey : generate l.requests (value, location.file) with
    | ok key => exact .pure _
    | error reason => exact .throw (.generator hgenerate hkey)

/-- A known text gets a key unless the caller refuses. -/
lemma failsBy_resolveKnown (entry : Entry) :
    FailsBy policy.Refuses (resolveKnown policy entry value location) := by
  rw [resolveKnown]
  cases honConflict : policy.onConflict with
  | keep => exact failsBy_giveKnown value location _
  | mint => exact (failsBy_mintKey policy value location).bind fun key => failsBy_giveNew _ _ _
  | ask decide =>
    simp only
    cases hdecision : decide ⟨entry.primary, value, location, entry.keys⟩ with
    | error reason => exact .throw (.decision honConflict hdecision)
    | ok decision =>
      cases decision with
      | none => exact failsBy_giveKnown value location _
      | some key =>
        simp only
        split_ifs
        · exact failsBy_giveKnown value location _
        · exact failsBy_giveNew value location _

lemma failsBy_resolveNew : FailsBy policy.Refuses (resolveNew policy value location) := by
  rw [resolveNew]
  refine FailsBy.get.bind fun l => ?_
  cases l.generated.lookup value with
  | some key => exact failsBy_giveNew value location _
  | none =>
    exact (failsBy_mintKey policy value location).bind fun key =>
      (FailsBy.modify _).bind fun _ => failsBy_giveNew _ _ _

/-- **A phrase is kept from its key by a function of the caller only.** -/
theorem failsBy_resolveKey (d : Delimiter) (catalogue : Catalogue) (full : Text) :
    FailsBy policy.Refuses (resolveKey d policy catalogue location full) := by
  rw [resolveKey]
  cases d.phrase? full with
  | none => exact .pure _
  | some p =>
    simp only
    cases catalogue.lookup (canonicalize p.payload) with
    | some entry => exact (failsBy_resolveKnown policy _ location entry).bind fun _ => .pure _
    | none => exact (failsBy_resolveNew policy _ location).bind fun _ => .pure _

end Failures

end Phrasebook
