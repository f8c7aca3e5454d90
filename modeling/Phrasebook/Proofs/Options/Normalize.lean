import Mathlib.Data.List.Basic
import Phrasebook.Proofs.Message.Bookkeeping

/-!
# Normal options

Options are normal if everything that is looked up by name is known, the pattern and the import statement
of the caller can be read, and nothing that is needed is left open. What remains the second time are the
conflicts between older and newer spellings: both are kept, so a conflict is told again, while an older
spelling that was heeded agrees with the accessor that it went into.

## Main results

* `Options.isNormal_of_normalize` — making options normal gives normal options.
* `Options.IsNormal.normalize_eq` — it changes nothing about options that are normal.
* `Options.normalize_reaches_fixed_point` — what doing it twice gives.
-/

namespace Phrasebook

open List

variable {given a : AccessorOptions} {f : Framework} {option : OlderOption} {p : PlainOptions}

/-- Options for plain code with a framework `f` that can be relied on. -/
structure PlainOptions.IsNormal (p : PlainOptions) (f : Framework) : Prop where
  importType : p.importType = "named" ∨ p.importType = "default" ∨ p.importType = "namespace"
  namespaceName : p.importType = "namespace" → isIdentifierLine p.namespaceName = true
  /-- The import statement of the caller can be read. -/
  customImport : ∀ statement ∈ p.customImport, (CustomImport.parse? statement).isSome
  source : p.source = none → f.plainSource? = none

/-- Options that can be relied on. -/
structure Options.IsNormal (o : Options) : Prop where
  /-- The framework is known, and plain code gets what it needs with it. -/
  framework : ∃ f : Framework, o.framework = f.name ∧ o.plain.IsNormal f
  /-- There is an accessor, and a global function if nothing is imported. -/
  accessor : ∃ a, o.accessor? = some a ∧ (a.noImport = true → a.globalFunction.isSome)
  pattern : ∃ d, o.delimiter = .ok d ∧ d.pattern.groups = 1
  commentType : o.commentType = "block" ∨ o.commentType = "line"

lemma Framework.ofName?_name (f : Framework) : ofName? f.name = some f := by
  cases f <;> decide

namespace Options

variable {o n : Options} {warnings : List Warning}

/-- Whether a warning tells a conflict between an older and a newer spelling. -/
def isConflict (w : Warning) : Bool := w.code == "CONFIG002"

/-! ## The accessor -/

lemma withGlobalFunction_eq (h : a.noImport → a.globalFunction.isSome) :
    withGlobalFunction a = a := by
  rw [withGlobalFunction, if_neg]
  rw [Bool.and_eq_true, Option.isNone_iff_eq_none]
  rintro ⟨hnone, hglobal⟩
  simpa [hglobal] using h hnone

lemma isSome_withGlobalFunction (h : (withGlobalFunction a).noImport) :
    (withGlobalFunction a).globalFunction.isSome := by
  rw [withGlobalFunction] at h ⊢
  split_ifs at h ⊢ with hglobal
  · rfl
  · simpa [h, Option.isSome_iff_ne_none] using hglobal

/-- What has an older spelling is not changed by the global function. -/
lemma get_withGlobalFunction (h : option ∈ o.olderOptions) (a : AccessorOptions) :
    option.get (withGlobalFunction a) = option.get a := by
  simp only [olderOptions, mem_cons, not_mem_nil, or_false] at h
  rw [withGlobalFunction]
  rcases h with rfl | rfl | rfl <;> split_ifs <;> rfl

/-- What is told about an older spelling where the accessor is given. -/
def conflict (given : AccessorOptions) (option : OlderOption) : List Warning :=
  (heedOlder (some given) (given, []) option).2

lemma conflict_of_none (h : option.value = none) : conflict given option = [] := by
  simp only [conflict, heedOlder, h]

/-- What is told about an older option with another value. -/
lemma conflict_of_some {value : Text} (h : option.value = some value) :
    conflict given option = if option.get given == value then [] else
      [⟨"CONFIG002", option.older, "conflicts with i18n_import." ++ option.now ++ "="
        ++ (option.get given).quoted ++ "; i18n_import wins"⟩] := by
  simp only [conflict, heedOlder, h]
  split_ifs <;> rfl

/-- Where an accessor is given, an older spelling changes nothing. -/
lemma heedOlder_some (given a : AccessorOptions) (told : List Warning) (option : OlderOption) :
    heedOlder (some given) (a, told) option = (a, told ++ conflict given option) := by
  cases hvalue : option.value with
  | none =>
    rw [conflict_of_none hvalue, append_nil]
    simp only [heedOlder, hvalue]
  | some value =>
    rw [conflict_of_some hvalue]
    simp only [heedOlder, hvalue]
    split_ifs
    · rw [append_nil]
    · rfl

/-- Older options change nothing if there is an accessor. -/
lemma foldl_heedOlder_some (given a : AccessorOptions) (options : List OlderOption)
    (told : List Warning) : options.foldl (heedOlder (some given)) (a, told) =
      (a, told ++ options.flatMap (conflict given)) := by
  induction options generalizing told with
  | nil => simp
  | cons option options ih => rw [foldl_cons, heedOlder_some, ih, flatMap_cons, append_assoc]

/-- An accessor that is given is kept. -/
lemma normalAccessor_some (h : o.accessor? = some given) (f : Framework) :
    o.normalAccessor f = (withGlobalFunction given, o.olderOptions.flatMap (conflict given)) := by
  rw [normalAccessor, h, Option.getD_some, foldl_heedOlder_some, nil_append]

/-- Where no accessor is given, the older spellings are heeded. -/
lemma normalAccessor_none (h : o.accessor? = none) (f : Framework) :
    (∀ option ∈ o.olderOptions, ∀ value ∈ option.value, option.get (o.normalAccessor f).1 = value) ∧
      ∀ w ∈ (o.normalAccessor f).2, isConflict w = false := by
  have hfold : (o.olderOptions.foldl (heedOlder none) (f.accessor, [])).1 = { f.accessor with
      name := o.olderName.getD f.accessor.name, hook := o.olderHook.getD f.accessor.hook,
      source := o.olderSource.getD f.accessor.source } := by
    rw [olderOptions]
    cases o.olderName <;> cases o.olderHook <;> cases o.olderSource <;> rfl
  constructor
  · intro option hoption value hvalue
    simp only [normalAccessor, h]
    rw [get_withGlobalFunction hoption, Option.getD_none, hfold]
    simp only [olderOptions, mem_cons, not_mem_nil, or_false] at hoption
    rcases hoption with rfl | rfl | rfl
    all_goals
      rw [Option.mem_def] at hvalue
      simp only at hvalue
      simp [hvalue]
  · simp only [normalAccessor, h]
    refine List.foldlRecOn _ _ nofun
      (motive := fun state : AccessorOptions × List Warning => ∀ w ∈ state.2, isConflict w = false) ?_
    intro state hstate option _ w hw
    unfold heedOlder at hw
    split at hw
    · exact hstate w hw
    · rcases mem_append.mp hw with hw | hw
      · exact hstate w hw
      · rw [mem_singleton.mp hw]
        rfl
    · contradiction

/-- **The accessor of normal options** stays as it is, and the conflicts are told again. -/
theorem normalAccessor_again (ha : n.accessor? = some (o.normalAccessor f).1)
    (holder : n.olderOptions = o.olderOptions) (g : Framework) :
    n.normalAccessor g = ((o.normalAccessor f).1, (o.normalAccessor f).2.filter isConflict) := by
  have hglobal : withGlobalFunction (o.normalAccessor f).1 = (o.normalAccessor f).1 :=
    withGlobalFunction_eq isSome_withGlobalFunction
  rw [normalAccessor_some ha, hglobal, holder, Prod.mk.injEq, eq_self, true_and]
  cases hgiven : o.accessor? with
  | none =>
    obtain ⟨hheeded, hnone⟩ := normalAccessor_none hgiven f
    rw [filter_eq_nil_iff.mpr fun w hw => by simp [hnone w hw], flatMap_eq_nil_iff]
    intro option hoption
    cases hvalue : option.value with
    | none => exact conflict_of_none hvalue
    | some value => rw [conflict_of_some hvalue, hheeded option hoption value hvalue, if_pos (beq_self_eq_true _)]
  | some given =>
    rw [normalAccessor_some hgiven, filter_flatMap]
    refine flatMap_congr fun option hoption => ?_
    cases hvalue : option.value with
    | none => simp only [conflict_of_none hvalue, filter_nil]
    | some value =>
      rw [conflict_of_some hvalue, conflict_of_some hvalue, get_withGlobalFunction hoption]
      split_ifs <;> rfl

/-! ## The other options -/

lemma normalFramework_spec (o : Options) : o.normalFramework.2.filter isConflict = [] := by
  rw [normalFramework]
  split <;> rfl

lemma normalFramework_eq (h : o.framework = f.name) : o.normalFramework = (f, []) := by
  rw [normalFramework, h, Framework.ofName?_name]

/-- A normal pattern can be read. -/
lemma normalPattern_spec {r : Text × List Warning} (h : o.normalPattern = .ok r) :
    (∃ d, Delimiter.ofText r.1 o.characterNames = .ok d ∧ d.pattern.groups = 1) ∧
      r.2.filter isConflict = [] := by
  rw [normalPattern] at h
  split at h
  · rename_i d hd
    obtain rfl := Except.ok.inj h
    exact ⟨⟨d, hd, d.oneGroup⟩, rfl⟩
  · split_ifs at h
    obtain rfl := Except.ok.inj h
    -- the names of characters are not needed to read it
    have hdefault : (Delimiter.ofText Delimiter.defaultSource o.characterNames).toOption.any
        (fun _ => true) = true := by
      with_unfolding_all rfl
    obtain ⟨d, hd, -⟩ := exists_ok_of_any hdefault
    exact ⟨⟨d, hd, d.oneGroup⟩, rfl⟩

lemma normalPattern_eq {d : Delimiter} (h : o.delimiter = .ok d) :
    o.normalPattern = .ok (o.pattern, []) := by
  rw [normalPattern, h]

/-- A normal kind of comments is one of the two. -/
lemma normalCommentType_spec (o : Options) :
    (o.normalCommentType.1 = "block" ∨ o.normalCommentType.1 = "line") ∧
      o.normalCommentType.2.filter isConflict = [] := by
  rw [normalCommentType]
  split_ifs with hknown
  · simpa using hknown
  · exact ⟨.inl rfl, rfl⟩

lemma normalCommentType_eq (h : o.commentType = "block" ∨ o.commentType = "line") :
    o.normalCommentType = (o.commentType, []) := by
  rw [normalCommentType, if_pos (by simpa using h)]

/-! ## Plain code -/

/-- A normal kind of imports is one of the three. -/
lemma normalImportType_spec (p : PlainOptions) :
    ((normalImportType p).1.importType = "named" ∨ (normalImportType p).1.importType = "default" ∨
      (normalImportType p).1.importType = "namespace") ∧ (normalImportType p).2.filter isConflict = [] := by
  rw [normalImportType]
  split_ifs with hknown
  · simpa [or_assoc] using hknown
  · exact ⟨.inl rfl, rfl⟩

/-- Only a statement that cannot be read is left out. -/
lemma normalCustomImport_spec (p : PlainOptions) :
    (∃ kept, (normalCustomImport p).1 = { p with customImport := kept } ∧
      ∀ statement ∈ kept, (CustomImport.parse? statement).isSome) ∧
    (normalCustomImport p).2.filter isConflict = [] := by
  rw [normalCustomImport]
  split
  · rename_i hnone
    exact ⟨⟨none, by rw [← hnone], nofun⟩, rfl⟩
  · rename_i statement hstatement
    split
    · rename_i c hc
      refine ⟨⟨some statement, by rw [← hstatement], fun u hu => ?_⟩, rfl⟩
      rw [← Option.some.inj hu, hc]
      rfl
    · exact ⟨⟨none, rfl, nofun⟩, rfl⟩

/-- The normal options of plain code. -/
lemma normalPlain_spec {q : PlainOptions} (h : normalPlain p f = .ok (q, warnings)) :
    q.IsNormal f ∧ warnings.filter isConflict = [] := by
  obtain ⟨htype, htold⟩ := normalImportType_spec p
  obtain ⟨⟨kept, hkept, hread⟩, hleft⟩ := normalCustomImport_spec (normalImportType p).1
  simp only [normalPlain, hkept] at h
  generalize normalImportType p = typed at *
  split_ifs at h with hbad hsource
  all_goals
    obtain ⟨rfl, rfl⟩ := Prod.mk.inj (Except.ok.inj h)
    refine ⟨⟨htype, by simpa using hbad, hread, fun hnone => ?_⟩, by simp [htold, hleft]⟩
  · exact hnone
  · exact absurd hnone (by simpa [Option.isNone_iff_eq_none] using hsource)

/-- Normal options for plain code are kept. -/
lemma normalPlain_eq (h : p.IsNormal f) : normalPlain p f = .ok (p, []) := by
  have htype : normalImportType p = (p, []) := by
    rw [normalImportType, if_pos (by simpa [or_assoc] using h.importType)]
  have hcustom : normalCustomImport p = (p, []) := by
    rw [normalCustomImport]
    split
    · rfl
    · rename_i statement hstatement
      obtain ⟨c, hc⟩ := Option.isSome_iff_exists.mp (h.customImport statement hstatement)
      rw [hc]
  have hsource : (if p.source.isNone then { p with source := f.plainSource? } else p) = p := by
    split_ifs with hnone
    · rw [Option.isNone_iff_eq_none] at hnone
      rw [h.source hnone, ← hnone]
    · rfl
  have hgood : ¬ (p.importType == "namespace" && !isIdentifierLine p.namespaceName) := by
    rw [Bool.and_eq_true, beq_iff_eq, Bool.not_eq_true']
    rintro ⟨hspace, hbad⟩
    simp [h.namespaceName hspace] at hbad
  simp only [normalPlain, htype, hcustom, hsource, if_neg hgood, append_nil]

/-! ## All options -/

/-- **What normal options consist of**, and the warnings. -/
theorem exists_of_normalize (h : o.normalize = .ok (n, warnings)) :
    ∃ pattern plain : _ × List Warning, o.normalPattern = .ok pattern ∧
      normalPlain o.plain o.normalFramework.1 = .ok plain ∧
      n = { o with
        framework := o.normalFramework.1.name, accessor? := some (o.normalAccessor o.normalFramework.1).1,
        plain := plain.1, pattern := pattern.1, commentType := o.normalCommentType.1 } ∧
      warnings = o.normalFramework.2 ++ (o.normalAccessor o.normalFramework.1).2 ++ pattern.2 ++
        o.normalCommentType.2 ++ plain.2 := by
  rw [normalize] at h
  obtain ⟨pattern, hpattern, h⟩ := exists_ok_of_bind h
  obtain ⟨plain, hplain, h⟩ := exists_ok_of_bind h
  obtain ⟨rfl, rfl⟩ := Prod.mk.inj (Except.ok.inj h)
  exact ⟨pattern, plain, hpattern, hplain, rfl, rfl⟩

/-- **Making options normal makes them so.** -/
theorem isNormal_of_normalize (h : o.normalize = .ok (n, warnings)) : n.IsNormal := by
  obtain ⟨pattern, plain, hpattern, hplain, rfl, -⟩ := exists_of_normalize h
  exact {
    framework := ⟨_, rfl, (normalPlain_spec hplain).1⟩
    accessor := ⟨_, rfl, isSome_withGlobalFunction⟩
    pattern := (normalPattern_spec hpattern).1
    commentType := o.normalCommentType_spec.1 }

/-- **Normal options stay as they are.** -/
theorem IsNormal.normalize_eq (h : n.IsNormal) :
    ∃ f, n.normalize = .ok (n, (n.normalAccessor f).2) := by
  obtain ⟨f, hname, hplain⟩ := h.framework
  obtain ⟨a, ha, hglobal⟩ := h.accessor
  obtain ⟨d, hd, -⟩ := h.pattern
  have haccessor : (n.normalAccessor f).1 = a := by
    rw [normalAccessor_some ha, withGlobalFunction_eq hglobal]
  refine ⟨f, ?_⟩
  rw [normalize, normalFramework_eq hname, normalPattern_eq hd, normalCommentType_eq h.commentType]
  simp only [normalPlain_eq hplain, haccessor, ← hname, ← ha, bind, Except.bind, pure, Except.pure,
    nil_append, append_nil]

/-- **Once is enough.** Normal options can be relied on, and making them normal again changes nothing; what
is told again are the conflicts between older and newer spellings. Nothing but the framework, the accessors,
the pattern and the kind of comments is ever changed.

**Proof sketch.** All parts but the accessor give no warning for a value that they have given themselves
(`IsNormal.normalize_eq`). The accessor that was written down is compared with the older spellings again: an
older spelling that was heeded agrees with it, and one that was not differs from it as before
(`normalAccessor_again`). -/
theorem normalize_reaches_fixed_point (h : o.normalize = .ok (n, warnings)) :
    n.IsNormal ∧ n.normalize = .ok (n, warnings.filter isConflict) ∧
      n = { o with
        framework := n.framework, accessor? := n.accessor?, plain := n.plain, pattern := n.pattern,
        commentType := n.commentType } := by
  have hnormal := isNormal_of_normalize h
  obtain ⟨g, hagain⟩ := hnormal.normalize_eq
  obtain ⟨pattern, plain, hpattern, hplain, hn, hwarnings⟩ := exists_of_normalize h
  have haccessor := normalAccessor_again (n := n) (f := o.normalFramework.1) (by rw [hn]) (by rw [hn]; rfl) g
  have htold : warnings.filter isConflict = (o.normalAccessor o.normalFramework.1).2.filter isConflict := by
    simp only [hwarnings, filter_append, o.normalFramework_spec, (normalPattern_spec hpattern).2,
      o.normalCommentType_spec.2, (normalPlain_spec hplain).2, nil_append, append_nil]
  refine ⟨hnormal, ?_, by rw [hn]⟩
  rw [hagain, haccessor, htold]

/-- Options in which nearly nothing can be used as it is: a conflict is told twice, all else once. -/
theorem normalize_reaches_fixed_point_conflict :
    let o : Options := {
      framework := "svelte", accessor? := some { noImport := true }, pattern := "(", commentType := "html"
      plain := { importType := "all", customImport := some "import from" }
      olderName := some "t", olderHook := some "useI18n" }
    let codes : List Text := ["CONFIG005", "CONFIG002", "CONFIG003", "CONFIG005", "CONFIG005", "CONFIG005"]
    ∃ n warnings, o.normalize = .ok (n, warnings) ∧
      warnings.map Warning.code = codes ∧
      n.accessor? = some { noImport := true, globalFunction := some "t" } ∧ n.IsNormal ∧
      ∃ conflicts, n.normalize = .ok (n, conflicts) ∧ conflicts.map Warning.option = [("hook_name" : Text)] := by
  intro o codes
  have hrun : o.normalize.toOption.any (fun r => decide (
      r.2.map Warning.code = codes ∧
      r.1.accessor? = some { noImport := true, globalFunction := some "t" } ∧
      (r.2.filter isConflict).map Warning.option = [("hook_name" : Text)])) = true := by decide +kernel
  obtain ⟨⟨n, warnings⟩, hn, hall⟩ := exists_ok_of_any hrun
  obtain ⟨hcodes, haccessor, hconflicts⟩ := of_decide_eq_true hall
  obtain ⟨hnormal, hagain, -⟩ := normalize_reaches_fixed_point hn
  exact ⟨n, warnings, hn, hcodes, haccessor, hnormal, _, hagain, hconflicts⟩

end Options

end Phrasebook
