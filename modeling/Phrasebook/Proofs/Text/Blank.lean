import Mathlib.Data.List.TakeWhile
import Mathlib.Tactic.SplitIfs
import Phrasebook.Text.Blank
import Phrasebook.Text.Lines

/-!
# Texts of white space

## Main results

* `Text.isBlank_newline`, `Text.isBlank_lineIndent` — what is put around an inserted statement is blank.
-/

namespace Phrasebook

/-- A text of white space. -/
def Text.IsBlank (t : Text) : Prop := ∀ c ∈ t, c.isBlank = true

namespace Text

lemma IsBlank.append {t t' : Text} (h : t.IsBlank) (h' : t'.IsBlank) : IsBlank (t ++ t') :=
  List.forall_mem_append.mpr ⟨h, h'⟩

lemma isBlank_nil : IsBlank [] := List.forall_mem_nil _

/-- A line end is blank. -/
theorem isBlank_newline (t : Text) : t.newline.IsBlank := by
  rw [newline, IsBlank]
  split_ifs <;> decide

/-- Indentation is blank. -/
theorem isBlank_lineIndent (t : Text) (offset : Nat) : IsBlank (t.lineIndent offset) := by
  intro c hc
  have hspace := List.mem_takeWhile_imp hc
  rw [Bool.or_eq_true_iff, beq_iff_eq, beq_iff_eq] at hspace
  rcases hspace with rfl | rfl <;> decide

end Text

end Phrasebook
