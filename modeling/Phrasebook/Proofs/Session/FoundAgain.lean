import Phrasebook.Proofs.Conversion.Books
import Phrasebook.Proofs.Message.Catalogue
import Phrasebook.Proofs.Session.Files
import Phrasebook.Proofs.Session.Merging
import Phrasebook.Tree.Supplied

/-!
# New messages are found again

A run writes the messages for which it has made keys into a file. The table goes through merging, JSON,
bytes and the flattening of nested tables, and a message text may hold dots, quotes, backslashes, controls
and braces. What makes it work is that a new key is the message text itself, unless a function of the
caller makes keys.

## Main results

* `isIdentity_mergeExtracted` — the table is the identity on the texts that it has.
* `loadCatalogue_finds_again` — a later run that is given this file knows all messages under their keys.
-/

namespace Phrasebook

open List Option Text

variable {table : List (Text × Text)} {outcomes : List FileOutcome} {r : Record}

/-! ## The table of new messages -/

/-- The outcome of a file for which no function of the caller has made keys. -/
def FileOutcome.IsPlain (o : FileOutcome) : Prop :=
  ∀ r ∈ o.outcome, ∃ parser code file options catalogue dialect earlier requests,
    options.keys.IsPlain ∧
      convertFile parser code file options catalogue dialect earlier = .ok (r, requests)

/-- New keys are message texts. -/
lemma key_of_mem_newRecords (hplain : ∀ o ∈ outcomes, o.IsPlain) (hr : r ∈ newRecords outcomes) :
    r.key = .name r.value ∧ r.value ≠ [] := by
  obtain ⟨o, ho, hmem⟩ := mem_flatMap.mp hr
  split at hmem
  · rename_i outcome houtcome
    split_ifs at hmem
    · obtain ⟨parser, code, file, options, catalogue, dialect, earlier, requests, hkeys, hconvert⟩ :=
        hplain o ho outcome houtcome
      exact extracted_of_convertFile hkeys hconvert r hmem
    · cases hmem
  · cases hmem

/-- A table in which every text is its own name, none is empty, and each stands once. -/
structure IsIdentity (table : List (Text × Text)) : Prop where
  same : ∀ pair ∈ table, pair.1 = pair.2
  filled : ∀ pair ∈ table, pair.1 ≠ []
  nodup : (table.map Prod.fst).Nodup

/-- **The table of new messages** is the identity on the texts of the new records. -/
theorem isIdentity_mergeExtracted (hplain : ∀ o ∈ outcomes, o.IsPlain) :
    IsIdentity (mergeExtracted outcomes []).1 ∧
      ∀ text, (text, text) ∈ (mergeExtracted outcomes []).1 ↔ ∃ r ∈ newRecords outcomes, r.value = text := by
  have hmerges := merges_mergeExtracted outcomes []
  have hnodup := hmerges.nodup nodup_nil
  -- An entry comes from the first record with its key.
  have hrecord : ∀ pair ∈ (mergeExtracted outcomes []).1, ∃ r ∈ newRecords outcomes,
      r.key.text = pair.1 ∧ r.value = pair.2 := by
    intro pair hpair
    have hlookup := lookup_of_mem hnodup hpair
    rw [hmerges.first pair.1 rfl] at hlookup
    obtain ⟨r, hfind, hvalue⟩ := map_eq_some_iff.mp hlookup
    exact ⟨r, mem_of_find?_eq_some hfind, by simpa using find?_some hfind, hvalue⟩
  have hsame : ∀ pair ∈ (mergeExtracted outcomes []).1, pair.1 = pair.2 := by
    intro pair hpair
    obtain ⟨r, hr, hkey, hvalue⟩ := hrecord pair hpair
    rw [← hkey, ← hvalue, (key_of_mem_newRecords hplain hr).1]
    rfl
  refine ⟨⟨hsame, fun pair hpair => ?_, hnodup⟩, fun text => ⟨fun hmem => ?_, ?_⟩⟩
  · obtain ⟨r, hr, -, hvalue⟩ := hrecord pair hpair
    rw [hsame pair hpair, ← hvalue]
    exact (key_of_mem_newRecords hplain hr).2
  · obtain ⟨r, hr, -, hvalue⟩ := hrecord _ hmem
    exact ⟨r, hr, hvalue⟩
  · rintro ⟨r, hr, rfl⟩
    have htext : r.key.text = r.value := by
      rw [(key_of_mem_newRecords hplain hr).1]
      rfl
    obtain ⟨s, hs⟩ : ∃ s, (newRecords outcomes).find? (fun s => s.key.text == r.value) = some s :=
      isSome_iff_exists.mp (find?_isSome.mpr ⟨r, hr, by simpa using htext⟩)
    have hlookup := hmerges.first r.value rfl
    rw [hs] at hlookup
    have hmem := mem_of_lookup hlookup
    have hvalue : r.value = s.value := hsame _ hmem
    rwa [← hvalue] at hmem

/-- What such a table has for one of its texts: that text. -/
lemma IsIdentity.keysOf (h : IsIdentity table) {text : Text} (htext : (text, text) ∈ table) :
    keysOf table text = [.name text] := by
  obtain ⟨before, after, rfl⟩ := append_of_mem htext
  have hnodup := h.nodup
  rw [map_append, map_cons, nodup_append, nodup_cons] at hnodup
  obtain ⟨-, ⟨hafter, -⟩, hbefore⟩ := hnodup
  have hnone : ∀ pair ∈ before ++ after, (pair.2 == text) = false := by
    intro pair hpair
    refine beq_false_of_ne fun heq => ?_
    rcases mem_append.mp hpair with hmem | hmem
    · rw [← h.same pair (by simp [hmem])] at heq
      exact hbefore pair.1 (mem_map_of_mem hmem) text mem_cons_self heq
    · rw [← h.same pair (by simp [hmem])] at heq
      exact hafter (mem_map.mpr ⟨pair, hmem, heq⟩)
  obtain ⟨hbefore, hafter⟩ := forall_mem_append.mp hnone
  have hnil : ∀ pairs : List (Text × Text), (∀ pair ∈ pairs, (pair.2 == text) = false) →
      pairs.filter (fun pair => pair.2 == text) = [] := fun pairs hpairs =>
    filter_eq_nil_iff.mpr fun pair hpair => by simp [hpairs pair hpair]
  simp [Phrasebook.keysOf, filter_append, hnil before hbefore, hnil after hafter]

/-! ## Catalogues that give the same keys -/

/-- A catalogue that gives a message the key that is on record: wherever a phrase with that message text
stands, and whatever is in the books, the phrase gets that key, the key is recorded as a known one, and no
key is minted. -/
def Catalogue.FindsAgain (c : Catalogue) (r : Record) : Prop :=
  ∀ (d : Delimiter) (generate : Option KeyGenerator) (l : Ledger) (i : Inquiry),
    i.onConflict = .keep → i.value? d = some r.value →
      ∃ l', serve d c generate l i = (.ok (some r.key), l') ∧
        (∃ u ∈ l'.used, u.key = r.key ∧ u.value = r.value ∧ u.location.file = i.location.file) ∧
        l'.generated = l.generated ∧ l'.extracted = l.extracted ∧ l'.requests = l.requests

/-- A catalogue finds a message again whose primary key is the one on record. -/
lemma Catalogue.findsAgain_of_lookup {c : Catalogue} {entry : Entry} (hentry : c.lookup r.value = some entry)
    (hkey : entry.primary = r.key) : c.FindsAgain r := by
  intro d generate l i hkeep hvalue
  obtain ⟨p, hphrase, hcanonical⟩ := map_eq_some_iff.mp hvalue
  refine ⟨l.recordUsed ⟨r.key, r.value, i.location⟩, ?_, l.exists_recordUsed _ _ _, ?_⟩
  · rw [serve, resolveKey, hphrase]
    simp only [hcanonical, hentry, resolveKnown, hkeep, hkey]
    rfl
  · rw [Ledger.recordUsed_eq]
    exact ⟨rfl, rfl, rfl⟩

/-- The catalogue of such a table finds each record again whose key is its text. -/
lemma IsIdentity.findsAgain (h : IsIdentity table) (hkey : r.key = .name r.value)
    (hmem : (r.value, r.value) ∈ table) : (Catalogue.ofTable table).FindsAgain r := by
  have hentry : (Catalogue.ofTable table).lookup r.value = some (.single (.name r.value)) := by
    rw [lookup_ofTable, h.keysOf hmem]
    rfl
  exact Catalogue.findsAgain_of_lookup hentry hkey.symm

/-! ## Writing and reading the table -/

/-- An object of texts can be written out if its texts can. -/
lemma isEncodable_render_ofTexts (h : ∀ pair ∈ table, pair.1.isEncodable ∧ pair.2.isEncodable) :
    ((Json.ofTexts table).render ++ "\n").isEncodable := by
  have hrender : ∀ c ∈ (Json.ofTexts table).render, c.isSurrogate = false :=
    Json.forall_mem_render_ofTexts (by decide) fun pair hpair =>
      ⟨isEncodable_iff.mp (Json.isEncodable_quote (h pair hpair).1),
        isEncodable_iff.mp (Json.isEncodable_quote (h pair hpair).2)⟩
  rw [isEncodable_append, isEncodable_iff.mpr hrender]
  rfl

/-- An object of texts is written without carriage returns. -/
lemma return_notMem_render_ofTexts (table : List (Text × Text)) :
    .scalar '\r' ∉ (Json.ofTexts table).render ++ Text.ofString "\n" := by
  have hquote : ∀ t : Text, ∀ c ∈ Json.quote t, c ≠ '\r' := by
    rintro t c hc rfl
    simp only [Json.quote, mem_append] at hc
    rcases hc with (hc | hc) | hc
    · exact absurd hc (by decide)
    · obtain ⟨d, -, hd⟩ := mem_flatMap.mp hc
      exact absurd (Json.le_toNat_of_mem_escapePoint hd) (by decide)
    · exact absurd hc (by decide)
  have hrender : ∀ c ∈ (Json.ofTexts table).render, c ≠ '\r' :=
    Json.forall_mem_render_ofTexts (by decide) fun pair _ => ⟨hquote pair.1, hquote pair.2⟩
  intro hmem
  rcases mem_append.mp hmem with hmem | hmem
  · exact hrender _ hmem rfl
  · exact absurd hmem (by decide)

/-- New messages are written if there is no file yet: the table of the new messages alone. -/
lemma run_writeMessages {a : Arguments} {output : Text} (houtput : a.output = some output)
    (hwrites : a.dryRun = false) {desk : Desk} {p : Path}
    (hp : p = Path.normalize ⟨"/", desk.disk.current⟩ (Path.ofText output))
    (hfresh : desk.disk.hasFile p = false) (htakes : desk.disk.Takes p) {bytes : List UInt8}
    (hbytes : ((Json.ofTexts (mergeExtracted outcomes []).1).render ++ "\n").encode = .ok bytes) :
    ∃ disk printed, (a.writeMessages outcomes).run.run desk = (.ok (), ⟨disk, printed⟩) ∧
      disk.read p = .ok bytes := by
  obtain ⟨disk, hwrite, hread⟩ := Session.run_writeBelow htakes hbytes
  have hresolve : (Session.resolve output).run.run desk = (.ok p, desk) := by
    rw [hp]
    rfl
  have htable : (Session.loadTable p).run.run desk = (.ok [], desk) := by
    rw [Session.loadTable, run_bind]
    show (if !desk.disk.hasFile p then _ else _ : Session (List (Text × Text))).run.run desk = _
    rw [hfresh]
    rfl
  rw [Arguments.writeMessages, houtput]
  simp only [Json.ofTexts, Json.textMembers] at hwrite
  simp only [run_bind, hresolve, htable, hwrites, Bool.not_false, if_true, hwrite]
  exact ⟨disk, _, rfl, hread⟩

/-- **New messages are found again.** Let no function of the caller have made keys, and let all message
texts be such that they can be written out. Where there is no file yet and the disk takes one, the run
writes the table of its new messages; the catalogue that is read from it gives each of these messages the
key that is on record, records it as a known one, and mints nothing. -/
theorem loadCatalogue_finds_again {outcomes : List FileOutcome} (hplain : ∀ o ∈ outcomes, o.IsPlain)
    (hencodable : ∀ r ∈ newRecords outcomes, r.value.isEncodable = true) {a : Arguments} {output : Text}
    (houtput : a.output = some output) (hwrites : a.dryRun = false) {desk : Desk} {p : Path}
    (hp : p = Path.normalize ⟨"/", desk.disk.current⟩ (Path.ofText output))
    (hfresh : desk.disk.hasFile p = false) (htakes : desk.disk.Takes p) :
    ∃ desk' catalogue, (a.writeMessages outcomes).run.run desk = (.ok (), desk') ∧
      (Session.loadCatalogue p).run.run desk' = (.ok catalogue, desk') ∧
      ∀ r ∈ newRecords outcomes, catalogue.FindsAgain r := by
  obtain ⟨hidentity, hmem⟩ := isIdentity_mergeExtracted hplain
  have htexts : ∀ pair ∈ (mergeExtracted outcomes []).1,
      pair.1.isEncodable = true ∧ pair.2.isEncodable = true := by
    rintro ⟨name, text⟩ hpair
    obtain rfl : name = text := hidentity.same _ hpair
    obtain ⟨r, hr, rfl⟩ := (hmem name).mp hpair
    exact ⟨hencodable r hr, hencodable r hr⟩
  obtain ⟨bytes, hbytes, hdecode⟩ := exists_encode_decode (isEncodable_render_ofTexts htexts)
  obtain ⟨disk, printed, hrun, hread⟩ := run_writeMessages houtput hwrites hp hfresh htakes hbytes
  have hload : (Session.loadJson "Translations" p).run.run ⟨disk, printed⟩ =
      (.ok (Json.ofTexts (mergeExtracted outcomes []).1), ⟨disk, printed⟩) :=
    Session.run_loadJson hread hdecode (return_notMem_render_ofTexts _)
      (Json.parse_render_of_nodup hidentity.nodup) _
  refine ⟨⟨disk, printed⟩, Catalogue.ofTable (mergeExtracted outcomes []).1, hrun, ?_, fun r hr => ?_⟩
  · rw [Session.loadCatalogue, run_bind, hload]
    show (Except.ok (Catalogue.ofTable ((Json.ofTexts (mergeExtracted outcomes []).1).flatten [])), _) = _
    rw [Json.flatten_ofTexts hidentity.filled hidentity.nodup]
  · exact hidentity.findsAgain (key_of_mem_newRecords hplain hr).1 ((hmem r.value).mpr ⟨r, hr, rfl⟩)

/-- A message text with dots, quotes, a backslash, a tab and braces, which a template has once. The table is
written into a directory that has to be made, and a later run finds the text in another file. -/
theorem loadCatalogue_finds_again_dotted :
    let text : Text := "..a.\"b\"\\\t\x7bc\x7d"
    let code : Text := "<template><p>___" ++ text ++ "___</p></template>"
    let file (o : Outcome) : FileOutcome := ⟨.ofText "f.vue", true, [], some o⟩
    let a : Arguments := { output := some "x/out.json" }
    let desk : Desk := { disk := .ofFiles ["w"] [] }
    let p : Path := ⟨"/", ["w", "x", "out.json"]⟩
    let i : Inquiry := ⟨"___" ++ text ++ "___", ⟨"g.vue", ⟨1, 0⟩⟩, .keep⟩
    ∃ o requests d desk' catalogue,
      convertFile (Parser.ofSupplied []) code "f.vue" {} [] none [] = .ok (o, requests) ∧
      (newRecords [file o]).map Record.value = [text] ∧ desk.disk.hasFile p = false ∧ desk.disk.Takes p ∧
      (a.writeMessages [file o]).run.run desk = (.ok (), desk') ∧
      (Session.loadCatalogue p).run.run desk' = (.ok catalogue, desk') ∧
      Delimiter.ofText Delimiter.defaultSource = .ok d ∧
      (serve d catalogue none {} i).1 = .ok (some (.name text)) := by
  intro text code file a desk p i
  have hconverted : (convertFile (Parser.ofSupplied []) code "f.vue" {} [] none []).toOption.any
      (fun result => (newRecords [file result.1]).map Record.value == [text]) = true := by decide +kernel
  obtain ⟨⟨o, requests⟩, hok, hrecords⟩ := exists_ok_of_any hconverted
  have hvalues : (newRecords [file o]).map Record.value = [text] := eq_of_beq hrecords
  have hdelimiter : (Delimiter.ofText Delimiter.defaultSource).toOption.any
      (fun d => i.value? d == some text) = true := by decide +kernel
  obtain ⟨d, hd, hvalue⟩ := exists_ok_of_any hdelimiter
  have hplain : ∀ f ∈ [file o], f.IsPlain := by
    refine forall_mem_singleton.mpr fun r hr => ?_
    obtain rfl := mem_some.mp hr
    exact ⟨_, _, _, {}, _, _, _, _, ⟨rfl, fun _ => by simp⟩, hok⟩
  have htext : ∀ r ∈ newRecords [file o], r.value = text := fun r hr =>
    mem_singleton.mp (hvalues ▸ mem_map_of_mem hr)
  have hencodable : ∀ r ∈ newRecords [file o], r.value.isEncodable = true := fun r hr => by
    rw [htext r hr]
    decide
  have hfresh : desk.disk.hasFile p = false := by decide +kernel
  have htakes : desk.disk.Takes p := ⟨_, _, rfl, rfl, rfl⟩
  obtain ⟨desk', catalogue, hrun, hload, hfound⟩ :=
    loadCatalogue_finds_again (a := a) hplain hencodable rfl rfl rfl hfresh htakes
  obtain ⟨r, hr, -⟩ : ∃ r ∈ newRecords [file o], r.value = text :=
    mem_map.mp (hvalues ▸ mem_singleton_self text)
  obtain ⟨l', hserve, -⟩ := hfound r hr d none {} i rfl (by rw [htext r hr]; exact eq_of_beq hvalue)
  rw [(key_of_mem_newRecords hplain hr).1, htext r hr] at hserve
  exact ⟨o, requests, d, desk', catalogue, hok, hvalues, hfresh, htakes, hrun, hload, hd,
    congrArg Prod.fst hserve⟩

end Phrasebook
