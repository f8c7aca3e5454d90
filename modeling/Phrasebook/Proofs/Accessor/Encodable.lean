import Phrasebook.Conversion.File
import Phrasebook.Proofs.Import.PlainCalls
import Phrasebook.Proofs.Message.Encodable

/-!
# Options that can be written out

Options are plain if no function of the caller writes calls or makes keys, and if all their texts can
be written out. They stay so when they are adapted to components and to scripts.

## Main results

* `Options.IsPlain.normalize` — plain options stay plain when they are made normal.
* `Options.IsPlain.isEncodable_convention` — what is called and imported with them can be written out.
-/

namespace Phrasebook

open List Option Text

variable {t : Option Text} {warnings : List Warning}

/-! ## Texts that may be missing -/

lemma mem_of_mem_filled? {u : Text} (h : u ∈ filled? t) : u ∈ t :=
  (mem_filter_iff.mp h).1

/-- A text that may be missing or empty, and what stands for it then. -/
lemma isEncodable_filled?_getD (ht : ∀ u ∈ t, u.isEncodable) {other : Text}
    (hother : other.isEncodable) : ((filled? t).getD other).isEncodable := by
  cases h : filled? t with
  | none => exact hother
  | some u => exact ht u (mem_of_mem_filled? h)

/-! ## Identifiers -/

/-- No surrogate stands in an identifier. -/
lemma CodePoint.isSurrogate_of_isIdentifierPart {c : CodePoint} (h : c.isIdentifierPart) :
    c.isSurrogate = false := by
  cases c with
  | scalar c => rfl
  | surrogate offset =>
    have hnumber : (CodePoint.surrogate offset).toNat = 0xD800 + offset.val := rfl
    have hbeyond : ¬ (CodePoint.surrogate offset).toNat < 0x80 := by omega
    simp only [isIdentifierPart, isWord, isAlphanumeric, hbeyond, if_false, Bool.or_eq_true, beq_iff_eq,
      reduceCtorEq, false_or, or_false] at h
    exact isSurrogate_of_inRanges (by decide +kernel) h

/-- **Identifiers can be written out.** -/
theorem isEncodable_of_isIdentifier {t : Text} (h : IsIdentifier t) : t.isEncodable := by
  obtain ⟨c, u, rfl, hstart, hu⟩ := h
  have hfirst : c.isSurrogate = false := by
    cases c with
    | scalar c => rfl
    | surrogate offset =>
      have hnumber : (CodePoint.surrogate offset).toNat = 0xD800 + offset.val := rfl
      simp [CodePoint.isIdentifierStart, CodePoint.isAsciiLetter, hnumber] at hstart
      omega
  rw [isEncodable_cons, hfirst]
  exact isEncodable_iff.mpr fun d hd => CodePoint.isSurrogate_of_isIdentifierPart (hu d hd)

/-! ## Options -/

/-- The texts of accessor options can be written out. -/
structure AccessorOptions.IsEncodable (a : AccessorOptions) : Prop where
  name : a.name.isEncodable = true
  hook : a.hook.isEncodable = true
  source : a.source.isEncodable = true
  newName : ∀ t ∈ a.newName, t.isEncodable = true
  globalFunction : ∀ t ∈ a.globalFunction, t.isEncodable = true
  /-- The function of scripts in which no hook can be called. -/
  scriptFunction : ∀ t ∈ a.scriptFunction, t.isEncodable = true

/-- The texts of the options for plain code can be written out. -/
structure PlainOptions.IsEncodable (p : PlainOptions) : Prop where
  functionName : ∀ t ∈ p.functionName, t.isEncodable = true
  source : ∀ t ∈ p.source, t.isEncodable = true
  namespaceName : p.namespaceName.isEncodable = true
  customImport : ∀ t ∈ p.customImport, t.isEncodable = true

/-- No function of the caller writes calls or makes keys, and all texts can be written out. -/
structure Options.IsPlain (o : Options) : Prop where
  writeCall_eq : o.writeCall = none
  keys : o.keys.IsPlain
  accessor? : ∀ a ∈ o.accessor?, a.IsEncodable
  plain : o.plain.IsEncodable
  older : ∀ option ∈ o.olderOptions, ∀ t ∈ option.value, t.isEncodable = true

lemma Framework.isEncodable_accessor (f : Framework) : f.accessor.IsEncodable := by
  cases f <;> constructor <;> simp [accessor]

namespace Options

variable {o : Options}

lemma IsPlain.accessor (h : o.IsPlain) : o.accessor.IsEncodable := by
  rw [Options.accessor]
  cases ha : o.accessor? with
  | none => exact Framework.isEncodable_accessor .react
  | some a => exact h.accessor? a ha

lemma IsPlain.isEncodable_heedOlder (h : o.IsPlain) {explicit : Option AccessorOptions}
    {state : AccessorOptions × List Warning} (hstate : state.1.IsEncodable) {option : OlderOption}
    (hoption : option ∈ o.olderOptions) : (heedOlder explicit state option).1.IsEncodable := by
  have hset : ∀ value, value.isEncodable → (option.set state.1 value).IsEncodable := by
    intro value hvalue
    simp only [olderOptions, mem_cons, not_mem_nil, or_false] at hoption
    rcases hoption with rfl | rfl | rfl
    · exact { hstate with name := hvalue }
    · exact { hstate with hook := hvalue }
    · exact { hstate with source := hvalue }
  unfold heedOlder
  split
  · exact hstate
  · rename_i value hvalue
    exact hset value (h.older option hoption value hvalue)
  · split_ifs <;> exact hstate

lemma IsPlain.isEncodable_normalAccessor (h : o.IsPlain) (f : Framework) :
    (o.normalAccessor f).1.IsEncodable := by
  have hstart : (o.accessor?.getD f.accessor).IsEncodable := by
    cases ha : o.accessor? with
    | none => exact f.isEncodable_accessor
    | some a => exact h.accessor? a ha
  have hall : (o.olderOptions.foldl (heedOlder o.accessor?)
      (o.accessor?.getD f.accessor, [])).1.IsEncodable :=
    List.foldlRecOn _ _ hstart
      (motive := fun state : AccessorOptions × List Warning => state.1.IsEncodable)
      fun _ hstate _ hoption => h.isEncodable_heedOlder hstate hoption
  simp only [normalAccessor, withGlobalFunction]
  split_ifs
  · exact { hall with globalFunction := fun t ht => mem_some.mp ht ▸ hall.name }
  · exact hall

lemma isEncodable_of_normalPlain {p normal : PlainOptions} (hp : p.IsEncodable) {f : Framework}
    (h : normalPlain p f = .ok (normal, warnings)) : normal.IsEncodable := by
  have htype : (normalImportType p).1.IsEncodable := by
    rw [normalImportType]
    split_ifs
    · exact hp
    · exact { hp with }
  have hcustom : (normalCustomImport (normalImportType p).1).1.IsEncodable := by
    rw [normalCustomImport]
    split
    · exact htype
    · split
      · exact htype
      · exact { htype with customImport := fun t ht => absurd ht (not_mem_none t) }
  simp only [normalPlain] at h
  split_ifs at h
  · obtain ⟨rfl, -⟩ := Prod.mk.inj (Except.ok.inj h)
    refine { hcustom with source := fun t ht => ?_ }
    cases f with
    | react => exact mem_some.mp ht ▸ isEncodable_ofString _
    | vue => cases ht
  · obtain ⟨rfl, -⟩ := Prod.mk.inj (Except.ok.inj h)
    exact hcustom

/-- **Normal options are as plain as those that were given.** -/
theorem IsPlain.normalize (h : o.IsPlain) {normal : Options}
    (hnormal : o.normalize = .ok (normal, warnings)) : normal.IsPlain := by
  obtain ⟨pattern, plain, -, hplain, rfl, -⟩ := exists_of_normalize hnormal
  refine ⟨h.writeCall_eq, h.keys, fun a ha => ?_, isEncodable_of_normalPlain h.plain hplain, h.older⟩
  exact mem_some.mp ha ▸ h.isEncodable_normalAccessor _

lemma IsPlain.forComponent (h : o.IsPlain) : o.forComponent.IsPlain := by
  rw [Options.forComponent]
  split_ifs
  · exact { h with }
  · exact h

lemma IsPlain.forScript (h : o.IsPlain) (b : Block) : (o.forScript b).IsPlain := by
  rw [Options.forScript]
  split
  · rename_i function _ hfunction
    refine { h with accessor? := fun a ha => mem_some.mp ha ▸ ?_ }
    refine { h.accessor with globalFunction := fun t ht => mem_some.mp ht ▸ ?_ }
    exact h.accessor.scriptFunction function (mem_of_mem_filled? hfunction)
  · exact h

end Options

/-! ## Conventions -/

/-- The texts of an import can be written out. -/
structure ImportRequirement.IsEncodable (r : ImportRequirement) : Prop where
  source : r.source.isEncodable = true
  name : r.name.isEncodable = true
  newName : ∀ t ∈ r.newName, t.isEncodable = true
  statement : ∀ t ∈ r.statement, t.isEncodable = true

/-- The texts of an accessor can be written out. -/
structure Acquisition.IsEncodable (a : Acquisition) : Prop where
  accessorName : a.accessorName.isEncodable = true
  hookName : a.hookName.isEncodable = true
  hookAlias : ∀ t ∈ a.hookAlias, t.isEncodable = true

/-- The texts of a convention can be written out. -/
structure Convention.IsEncodable (c : Convention) : Prop where
  callName : c.callName.isEncodable = true
  imports : ∀ r ∈ c.imports, r.IsEncodable
  acquisition : ∀ a ∈ c.acquisition, a.IsEncodable

lemma CustomImport.isEncodable_of_parse? {statement : Text} {c : CustomImport}
    (h : parse? statement = some c) (hstatement : statement.isEncodable) :
    c.statement.isEncodable ∧ c.source.isEncodable := by
  obtain @⟨_, _, _, _, _, source, _, _, _, _, _, _, _, -, -, -, -, -, -, -, -, -, -, -, heq⟩ := spells_of_parse? h
  refine ⟨isEncodable_trimWhile hstatement _, isEncodable_iff.mpr fun c hc => ?_⟩
  exact isEncodable_iff.mp hstatement c (by rw [heq]; simp [hc])

namespace Options.IsPlain

variable {o : Options}

lemma isEncodable_hookConvention (h : o.IsPlain) (owner : Option Int) :
    (o.hookConvention owner).IsEncodable := by
  have ha := h.accessor
  refine ⟨ha.name, fun r hr => ?_, fun a hacquired => ?_⟩
  · obtain rfl := mem_singleton.mp hr
    exact ⟨ha.source, ha.hook, ha.newName, fun t ht => absurd ht (by simp)⟩
  · obtain rfl := mem_some.mp hacquired
    exact ⟨ha.name, ha.hook, ha.newName⟩

lemma isEncodable_plainConvention (h : o.IsPlain) (owner : Option Int) :
    (o.plainConvention owner).IsEncodable := by
  have hfunction : ((filled? o.plain.functionName).getD o.accessor.name).isEncodable :=
    isEncodable_filled?_getD h.plain.functionName h.accessor.name
  rw [plainConvention]
  split
  · rename_i c hc
    obtain ⟨statement, hstatement, hparse⟩ := bind_eq_some_iff.mp hc
    obtain ⟨hwhole, hsource⟩ := CustomImport.isEncodable_of_parse? hparse
      (h.plain.customImport statement (mem_of_mem_filled? hstatement))
    obtain ⟨-, hname, hnew⟩ := CustomImport.parse?_spec hparse
    have hlocal := isEncodable_of_isIdentifier (CustomImport.isIdentifier_localName hparse)
    refine ⟨?_, fun r hr => ?_, fun a ha => absurd ha (by simp [customConvention])⟩
    · rw [customConvention]
      split_ifs <;> simp [hlocal, hfunction]
    · obtain rfl := mem_singleton.mp hr
      exact ⟨hsource, isEncodable_of_isIdentifier hname,
        fun t ht => isEncodable_of_isIdentifier (hnew t ht), fun t ht => mem_some.mp ht ▸ hwhole⟩
  · exact h.isEncodable_hookConvention owner
  · rename_i source _ hsource
    have hmodule := h.plain.source source hsource
    have hspace := h.plain.namespaceName
    rw [importConvention]
    split_ifs
    all_goals
      constructor
      · simp [hspace, hfunction]
      · intro r hr
        obtain rfl := mem_singleton.mp hr
        constructor <;> simp [hmodule, hspace, hfunction]
      · simp

/-- **The conventions of plain options** can be written out. -/
theorem isEncodable_convention (h : o.IsPlain) (scope : Scope) (owner : Option Int) :
    (o.convention scope owner).IsEncodable := by
  unfold convention
  split_ifs
  · refine ⟨isEncodable_filled?_getD h.accessor.globalFunction h.accessor.name, ?_, ?_⟩ <;> simp
  · split
    · exact h.isEncodable_hookConvention owner
    · exact h.isEncodable_hookConvention owner
    · exact h.isEncodable_plainConvention owner

end Options.IsPlain

end Phrasebook
