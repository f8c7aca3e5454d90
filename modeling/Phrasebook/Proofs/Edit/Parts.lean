import Phrasebook.Proofs.Edit.Validation

/-!
# Changes of parts of a text

A change that is made for a span of a text knows what it replaces, where that stands, and what stands
around it.

## Main results

* `Change.IsPart.quotes` — such a change quotes the text.
* `validate_of_isPart` — the check accepts such changes if they do not overlap.
-/

namespace Phrasebook

namespace Change

/-- A change that is made for a part of a text between two offsets, which is not empty. -/
def IsPart (t : Text) (lo hi : Nat) (c : Change) : Prop :=
  ∃ file start stop replacement, c = Change.make t file start stop replacement ∧
    lo ≤ start ∧ start < stop ∧ stop ≤ hi

/-- A change that ends before another begins. -/
def Precedes (a b : Change) : Prop := a.bounds.2 ≤ b.bounds.1

/-- A change that quotes a text: its span lies in the text and is not empty, and the rest of it is
what the text has there. -/
def Quotes (t : Text) (c : Change) : Prop :=
  ∃ start stop : Nat, start < stop ∧ stop ≤ t.length ∧ c.start = some (start : Int) ∧
    c.stop = some (stop : Int) ∧ c.replaced = t.slice start stop ∧
    c.first = t.position start ∧ c.last = t.position stop ∧
    ∃ s, c.surroundings = some s ∧ s.before = t.slice (start - contextLength) start ∧
      s.after = t.slice stop (stop + contextLength) ∧
      s.fullMatch = s.before ++ c.replaced ++ s.after

namespace IsPart

variable {t : Text} {lo hi : Nat} {c : Change}

lemma bounds_mem (h : c.IsPart t lo hi) :
    (lo : Int) ≤ c.bounds.1 ∧ c.bounds.1 < c.bounds.2 ∧ c.bounds.2 ≤ hi := by
  obtain ⟨file, start, stop, replacement, rfl, hlo, hlt, hhi⟩ := h
  simp only [bounds, make, Option.getD_some]
  omega

/-- **A change that is made for a part of a text quotes it.** -/
theorem quotes (h : c.IsPart t lo t.length) : c.Quotes t := by
  obtain ⟨file, start, stop, replacement, rfl, hlo, hlt, hhi⟩ := h
  exact ⟨start, stop, hlt, hhi, rfl, rfl, rfl, rfl, rfl, _, rfl, rfl, rfl, rfl⟩

lemma isAnchored (h : c.IsPart t lo hi) : c.IsAnchored := by
  obtain ⟨file, start, stop, replacement, rfl, -, hlt, -⟩ := h
  exact isAnchored_make t file replacement hlt

lemma fits (h : c.IsPart t lo t.length) : Fits t c c.bounds := by
  obtain ⟨file, start, stop, replacement, rfl, hlo, hlt, hhi⟩ := h
  refine ⟨Int.natCast_nonneg start, ?_, ?_, rfl⟩
  · exact Int.ofNat_le.mpr hlt.le
  · exact Int.ofNat_le.mpr hhi

end IsPart

end Change

/-- **The check accepts changes of parts that do not overlap.** -/
theorem validate_of_isPart {t : Text} {changes : List Change}
    (hparts : ∀ c ∈ changes, c.IsPart t 0 t.length) (hpair : changes.Pairwise Change.Precedes) :
    validate t changes = .ok () := by
  have hanchored := anchored_eq_map fun c hc => (hparts c hc).isAnchored.hasSpan
  rw [validate_eq_ok_iff, hanchored]
  constructor
  · intro x hx
    obtain ⟨c, hc, rfl⟩ := List.mem_map.mp hx
    exact (hparts c hc).fits
  · refine pairwise_sortAscending_spans (fun x : Change × Int × Int => x.2)
      (fun x => ⟨[x.2.2], rfl⟩) ?_ ?_
    · intro x hx
      obtain ⟨c, hc, rfl⟩ := List.mem_map.mp hx
      exact (hparts c hc).bounds_mem.2.1
    · exact List.pairwise_map.mpr (hpair.imp fun hab => .inl hab)

end Phrasebook
