import Mathlib.Data.List.Basic
import Mathlib.Tactic.SplitIfs
import Phrasebook.Proofs.Text.Slice
import Phrasebook.Site.Replacement

/-!
# What a template literal consists of

A template literal is a sequence of characters and of places for expressions, which are called holes
here. Phrases are looked for in a text in which holes are spelled as numbered markers, and offsets
count the characters of this text.

## Main results

* `TemplateText.lays_ofNode?` — the text of a template literal spells its items.
* `TemplateText.Lays.segment_eq`, `TemplateText.Lays.arguments_eq` — a phrase that cuts through no marker is
  a run of items, and so is what stands between phrases.
-/

namespace Phrasebook

open List Option Text

variable {run items : List TemplateItem} {n start stop offset : Nat} {t : Text} {p : Phrase}
  {state : TemplateText × Nat}

/-- What a template literal consists of. -/
inductive TemplateItem where
  | point (c : CodePoint)
  /-- The place of an expression, with where the expression stands in the source. -/
  | hole (start stop : Nat)
  deriving DecidableEq

/-- A call with arguments as it is written, where the caller has no function for this. -/
def callWith (callName : Text) (key : Key) (arguments : List Argument) : Text :=
  let passed : Text := if arguments.isEmpty then [] else ", " ++ renderArguments arguments
  callName ++ "(" ++ key.literal ++ passed ++ ")"

/-- Without a function of the caller a call is written in one way. -/
lemma Options.call_eq_callWith {o : Options} (h : o.writeCall = none) (callName : Text) (key : Key)
    (canonical : Text) (arguments : List Argument) :
    o.call callName key canonical arguments = callWith callName key arguments := by
  rw [call, h, callWith]
  split_ifs <;> simp

namespace TemplateItem

/-- The characters of a text. -/
def points (t : Text) : List TemplateItem := t.map point

/-- Where the expression of a hole stands. -/
def span? : TemplateItem → Option (Nat × Nat)
  | point _ => none
  | hole start stop => some (start, stop)

/-- Where the expressions of holes stand, in order. -/
def holes (items : List TemplateItem) : List (Nat × Nat) := items.filterMap span?

/-- Items as a text, with markers for holes that are numbered from `n` on. -/
def spell (n : Nat) : List TemplateItem → Text
  | [] => []
  | point c :: rest => c :: spell n rest
  | hole _ _ :: rest => TemplateText.markerText n ++ spell (n + 1) rest

/-- The markers of items whose text begins at an offset, numbered from `n` on. -/
def marks (n offset : Nat) : List TemplateItem → List Marker
  | [] => []
  | point _ :: rest => marks n (offset + 1) rest
  | hole start stop :: rest =>
    ⟨offset, offset + (TemplateText.markerText n).length, start, stop⟩
      :: marks (n + 1) (offset + (TemplateText.markerText n).length) rest

/-- Items with the expressions in their holes as substitutions. -/
def fill (render : TemplateSite.Renderer) : List TemplateItem → Text
  | [] => []
  | point c :: rest => c :: fill render rest
  | hole start stop :: rest => substitution (render start stop) ++ fill render rest

/-- The arguments of a call for some items: the expressions in their holes, numbered from one on. -/
def arguments (render : TemplateSite.Renderer) (items : List TemplateItem) : List Argument :=
  (holes items).mapIdx fun i h => ⟨argumentName (i + 1), render h.1 h.2⟩

/-- Items as the text of a message, with placeholders for holes that are numbered from `n` on. -/
def message (n : Nat) : List TemplateItem → Text
  | [] => []
  | point c :: rest => c :: message n rest
  | hole _ _ :: rest => placeholder n ++ message (n + 1) rest

/-! ## Items one behind the other -/

@[simp]
lemma holes_point (c : CodePoint) (items : List TemplateItem) : holes (point c :: items) = holes items :=
  rfl

@[simp]
lemma holes_hole (start stop : Nat) (items : List TemplateItem) :
    holes (hole start stop :: items) = (start, stop) :: holes items :=
  rfl

@[simp]
lemma holes_append (a b : List TemplateItem) : holes (a ++ b) = holes a ++ holes b :=
  filterMap_append

@[simp]
lemma holes_points (t : Text) : holes (points t) = [] := by
  simp [holes, points, span?, filterMap_eq_nil_iff]

lemma spell_append (n : Nat) (a b : List TemplateItem) :
    spell n (a ++ b) = spell n a ++ spell (n + (holes a).length) b := by
  induction a generalizing n with
  | nil => simp [spell, holes]
  | cons item a ih =>
    cases item with
    | point c => simp [spell, ih]
    | hole start stop => simp [spell, ih, Nat.add_assoc, Nat.add_comm 1]

@[simp]
lemma spell_points (n : Nat) (t : Text) : spell n (points t) = t := by
  induction t with
  | nil => rfl
  | cons c t ih => exact congrArg (c :: ·) ih

lemma spell_points_append (n : Nat) (t : Text) (items : List TemplateItem) :
    spell n (points t ++ items) = t ++ spell n items := by
  rw [spell_append, holes_points, spell_points]
  rfl

lemma marks_append (n offset : Nat) (a b : List TemplateItem) :
    marks n offset (a ++ b) =
      marks n offset a ++ marks (n + (holes a).length) (offset + (spell n a).length) b := by
  induction a generalizing n offset with
  | nil => simp [marks, spell, holes]
  | cons item a ih =>
    cases item with
    | point c =>
      simp only [cons_append, marks, ih, spell, length_cons, holes_point]
      rw [Nat.add_right_comm, Nat.add_assoc offset]
    | hole start stop =>
      simp only [cons_append, marks, ih, spell, length_append, holes_hole, length_cons]
      rw [Nat.add_right_comm n, Nat.add_assoc n, Nat.add_assoc offset]

lemma marks_points_append (n offset : Nat) (t : Text) (items : List TemplateItem) :
    marks n offset (points t ++ items) = marks n (offset + t.length) items := by
  induction t generalizing offset with
  | nil => rfl
  | cons c t ih =>
    rw [points, map_cons, cons_append, marks, ← points, ih, length_cons]
    congr 1
    omega

/-- Markers stand for the holes in order. -/
lemma map_marks (n offset : Nat) (items : List TemplateItem) :
    (marks n offset items).map (fun m => (m.expressionStart, m.expressionStop)) = holes items := by
  induction items generalizing n offset with
  | nil => rfl
  | cons item items ih =>
    cases item with
    | point c => exact ih n (offset + 1)
    | hole start stop => exact congrArg ((start, stop) :: ·) (ih _ _)

lemma length_markerText_pos (n : Nat) : 0 < (TemplateText.markerText n).length := by
  simp [TemplateText.markerText, Text.ofString]

/-- A marker lies in the text. -/
lemma bounds_of_mem_marks {m : Marker} (h : m ∈ marks n offset items) :
    offset ≤ m.start ∧ m.start < m.stop ∧ m.stop ≤ offset + (spell n items).length := by
  induction items generalizing n offset with
  | nil => cases h
  | cons item items ih =>
    cases item with
    | point c =>
      have hrest := ih (h : m ∈ marks n (offset + 1) items)
      rw [spell, length_cons]
      omega
    | hole start stop =>
      have hpos := length_markerText_pos n
      rw [spell, length_append]
      rcases mem_cons.mp h with rfl | h
      · simp only
        omega
      · have hrest := ih h
        omega

/-- The markers within a run of items are those of the run. -/
lemma filter_within_marks (n offset : Nat) (a b c : List TemplateItem)
    (hstart : start = offset + (spell n a).length)
    (hstop : stop = start + (spell (n + (holes a).length) b).length) :
    (marks n offset (a ++ (b ++ c))).filter (fun m => m.within start stop) =
      marks (n + (holes a).length) start b := by
  rw [marks_append, marks_append, ← hstart, ← hstop, filter_append, filter_append]
  have hbefore : (marks n offset a).filter (fun m => m.within start stop) = [] := by
    refine filter_eq_nil_iff.mpr fun m hm => ?_
    have hbounds := bounds_of_mem_marks hm
    simp only [Marker.within, Bool.and_eq_true, decide_eq_true_eq]
    omega
  have hinside : (marks (n + (holes a).length) start b).filter (fun m => m.within start stop) =
      marks (n + (holes a).length) start b := by
    refine filter_eq_self.mpr fun m hm => ?_
    have hbounds := bounds_of_mem_marks hm
    simp only [Marker.within, Bool.and_eq_true, decide_eq_true_eq]
    omega
  have hbehind : (marks (n + (holes a).length + (holes b).length) stop c).filter
      (fun m => m.within start stop) = [] := by
    refine filter_eq_nil_iff.mpr fun m hm => ?_
    have hbounds := bounds_of_mem_marks hm
    simp only [Marker.within, Bool.and_eq_true, decide_eq_true_eq]
    omega
  rw [hbefore, hinside, hbehind, nil_append, append_nil]

/-- **An offset inside of no marker** stands between two items. -/
theorem exists_split_at {q : Nat} (hle : offset ≤ q)
    (hq : q ≤ offset + (spell n items).length) (hmarks : ∀ m ∈ marks n offset items, q ≤ m.start ∨ m.stop ≤ q) :
    ∃ a b, items = a ++ b ∧ q = offset + (spell n a).length := by
  induction items generalizing n offset with
  | nil =>
    refine ⟨[], [], rfl, ?_⟩
    simp only [spell, length_nil, Nat.add_zero] at hq ⊢
    omega
  | cons item items ih =>
    rcases eq_or_lt_of_le hle with rfl | hlt
    · exact ⟨[], item :: items, rfl, rfl⟩
    · cases item with
      | point c =>
        rw [spell, length_cons] at hq
        obtain ⟨a, b, rfl, hsplit⟩ := @ih n (offset + 1) hlt (by omega) hmarks
        refine ⟨point c :: a, b, rfl, ?_⟩
        rw [spell, length_cons]
        omega
      | hole start stop =>
        rw [spell, length_append] at hq
        obtain ⟨hfirst, hrest⟩ := forall_mem_cons.mp hmarks
        have hstop : offset + (TemplateText.markerText n).length ≤ q :=
          hfirst.resolve_left (by simpa using hlt)
        obtain ⟨a, b, rfl, hsplit⟩ := ih hstop (by omega) hrest
        refine ⟨hole start stop :: a, b, rfl, ?_⟩
        rw [spell, length_append]
        omega

/-- A phrase that is a run of items: what stands before it, and what it consists of, are spelled up to where
it begins and ends. -/
def Occupies (items : List TemplateItem) (p : Phrase) (run : List TemplateItem) : Prop :=
  ∃ before after, items = before ++ (run ++ after) ∧ p.start = (spell 0 before).length ∧
    p.stop = p.start + (spell (holes before).length run).length

end TemplateItem

open TemplateItem

/-! ## Texts with markers -/

namespace TemplateText

/-- A text with markers that spells some items. -/
structure Lays (text : TemplateText) (items : List TemplateItem) : Prop where
  combined : text.combined = spell 0 items
  markers : text.markers = marks 0 0 items

/-- The hole for a substitution: from its first child that is no comment to the last one. -/
def holeOf (sub : Node) : List TemplateItem :=
  match sub.contents.head?, sub.contents.getLast? with
  | some first, some last => [.hole first.start last.stop]
  | _, _ => []

/-- The items of the source from `cursor` to `stop`, with substitutions in it. -/
def layoutFrom (t : Text) (cursor stop : Nat) : List Node → List TemplateItem
  | [] => points (t.slice cursor stop)
  | sub :: rest => points (t.slice cursor sub.start) ++ (holeOf sub ++ layoutFrom t sub.stop stop rest)

/-- **The items of a template literal**: the characters between its backticks that are in no
substitution, and a hole for each substitution. -/
def layout (t : Text) (n : Node) : List TemplateItem :=
  layoutFrom t (n.start + 1) (n.stop - 1) (substitutions n)

/-- One substitution: a part of the source and a marker are added. -/
lemma addSubstitution_eq_some {sub : Node} {next : TemplateText × Nat}
    (h : addSubstitution t state sub = some next) :
    ∃ start stop, holeOf sub = [.hole start stop] ∧ next.2 = sub.stop ∧
      next.1.combined = state.1.combined ++ spell state.1.markers.length
        (points (t.slice state.2 sub.start) ++ [.hole start stop]) ∧
      next.1.markers = state.1.markers ++ marks state.1.markers.length state.1.combined.length
        (points (t.slice state.2 sub.start) ++ [.hole start stop]) := by
  rw [addSubstitution] at h
  split at h
  · rename_i first last hfirst hlast
    obtain rfl := some.inj h
    refine ⟨first.start, last.stop, by rw [holeOf, hfirst, hlast], rfl, ?_, ?_⟩
    · simp [spell_points_append, spell]
    · simp [marks_points_append, marks, Nat.add_assoc]
  · cases h

/-- Substitutions one after the other, by induction on them. -/
lemma lays_foldlM {subs : List Node} {final : TemplateText × Nat}
    (h : subs.foldlM (addSubstitution t) state = some final) (stop : Nat) :
    final.1.combined ++ t.slice final.2 stop =
        state.1.combined ++ spell state.1.markers.length (layoutFrom t state.2 stop subs) ∧
      final.1.markers = state.1.markers ++
        marks state.1.markers.length state.1.combined.length (layoutFrom t state.2 stop subs) := by
  induction subs generalizing state with
  | nil =>
    obtain rfl := some.inj h
    have hmarks := marks_points_append state.1.markers.length state.1.combined.length
      (t.slice state.2 stop) []
    rw [append_nil] at hmarks
    rw [layoutFrom, spell_points, hmarks, marks, append_nil]
    exact ⟨rfl, rfl⟩
  | cons sub subs ih =>
    rw [foldlM_cons] at h
    obtain ⟨next, hnext, h⟩ := bind_eq_some_iff.mp h
    obtain ⟨start, stop', hhole, hcursor, hcombined, hmarkers⟩ := addSubstitution_eq_some hnext
    obtain ⟨htext, hmarks⟩ := ih h
    have hcount : next.1.markers.length = state.1.markers.length +
        (holes (points (t.slice state.2 sub.start) ++ [.hole start stop'])).length := by
      rw [hmarkers, length_append, ← map_marks, length_map]
    have hlength : next.1.combined.length = state.1.combined.length +
        (spell state.1.markers.length
          (points (t.slice state.2 sub.start) ++ [.hole start stop'])).length := by
      rw [hcombined, length_append]
    rw [htext, hmarks, layoutFrom, hhole, ← append_assoc (points _), spell_append, marks_append,
      ← hcount, ← hlength, hcursor, hcombined, hmarkers]
    simp only [append_assoc, and_self]

/-- **The text of a template literal spells its items.** -/
theorem lays_ofNode? {n : Node} {text : TemplateText} (h : ofNode? t n = some text) :
    text.Lays (layout t n) := by
  rw [ofNode?] at h
  obtain ⟨⟨built, cursor⟩, hbuilt, h⟩ := bind_eq_some_iff.mp h
  obtain rfl := some.inj h
  obtain ⟨hcombined, hmarkers⟩ := lays_foldlM hbuilt (n.stop - 1)
  exact ⟨hcombined, hmarkers⟩

namespace Lays

variable {text : TemplateText} {items : List TemplateItem}

/-- A phrase that is not empty and cuts through no marker is a run of items. -/
lemma exists_occupies (h : text.Lays items) (hlt : p.start < p.stop)
    (hstop : p.stop ≤ text.combined.length) (hcut : ∀ m ∈ text.markers, m.cutBy p = false) :
    ∃ run, Occupies items p run := by
  rw [h.combined] at hstop
  -- neither of its ends is inside of a marker
  have huncut : ∀ m ∈ marks 0 0 items, (p.start ≤ m.start ∨ m.stop ≤ p.start) ∧
      (p.stop ≤ m.start ∨ m.stop ≤ p.stop) := by
    intro m hm
    have hwhole := hcut m (h.markers ▸ hm)
    have hbounds := bounds_of_mem_marks hm
    simp only [Marker.cutBy, Marker.meets, Marker.within, Bool.and_eq_false_iff, Bool.not_eq_false',
      Bool.and_eq_true, decide_eq_true_eq, decide_eq_false_iff_not] at hwhole
    omega
  obtain ⟨before, rest, rfl, hbefore⟩ := exists_split_at (Nat.zero_le p.start)
    (by omega) fun m hm => (huncut m hm).1
  rw [Nat.zero_add] at hbefore
  have hrest : ∀ m ∈ marks (holes before).length p.start rest,
      p.stop ≤ m.start ∨ m.stop ≤ p.stop := by
    intro m hm
    refine (huncut m ?_).2
    rw [marks_append, Nat.zero_add, Nat.zero_add, ← hbefore]
    exact mem_append_right _ hm
  rw [spell_append, length_append, Nat.zero_add, ← hbefore] at hstop
  obtain ⟨run, after, rfl, hrun⟩ := exists_split_at hlt.le (by omega) hrest
  exact ⟨run, before, after, rfl, hbefore, hrun⟩

/-- The walk over the markers of a run fills its holes. -/
lemma fillMarkers_eq (s : TemplateSite) (render : TemplateSite.Renderer) {before after : Text} {cursor : Nat}
    (hcombined : s.text.combined = before ++ (spell n run ++ after)) (hcursor : cursor ≤ before.length)
    (hstop : stop = before.length + (spell n run).length) :
    s.fillMarkers render cursor stop (marks n before.length run) =
      s.text.combined.slice cursor before.length ++ fill render run := by
  induction run generalizing before n cursor with
  | nil =>
    rw [marks, TemplateSite.fillMarkers, hstop, spell, length_nil, Nat.add_zero, fill, append_nil]
  | cons item run ih =>
    cases item with
    | point c =>
      have hnext : s.text.combined = (before ++ [c]) ++ (spell n run ++ after) := by
        rw [hcombined, spell, append_assoc]
        rfl
      have hone : s.text.combined.slice before.length (before.length + 1) = [c] :=
        slice_of_eq (hnext.trans (append_assoc before [c] _)) rfl rfl
      have hih := @ih n (before ++ [c]) cursor hnext (by simp; omega) (by
        rw [hstop, spell, length_cons, length_append]
        simp only [length_singleton]
        omega)
      rw [length_append, length_singleton] at hih
      rw [marks, hih, fill, ← slice_append_slice _ hcursor (Nat.le_succ _), hone, append_assoc]
      rfl
    | hole start stop' =>
      have hnext : s.text.combined = (before ++ markerText n) ++ (spell (n + 1) run ++ after) := by
        rw [hcombined, spell]
        simp only [append_assoc]
      have hih := @ih (n + 1) (before ++ markerText n) (before.length + (markerText n).length) hnext
        (by rw [length_append]) (by
          rw [hstop, spell, length_append, length_append, Nat.add_assoc])
      rw [length_append] at hih
      rw [marks, TemplateSite.fillMarkers, hih, fill, slice_eq_take_drop _ (before.length + _),
        Nat.sub_self, take_zero, nil_append, append_assoc]

variable {s : TemplateSite} (h : s.text.Lays items) (render : TemplateSite.Renderer)

include h

section Between

variable {before after : List TemplateItem} (hitems : items = before ++ (run ++ after))
  (hstart : start = (spell 0 before).length) (hstop : stop = start + (spell (holes before).length run).length)

include hitems hstart hstop

/-- The markers of a run of items. -/
lemma filter_markers :
    s.text.markers.filter (fun m => m.within start stop) = marks (holes before).length start run := by
  rw [h.markers, hitems]
  simpa using filter_within_marks 0 0 before run after (by simpa using hstart) (by simpa using hstop)

/-- **What stands between phrases** is a run of items with its holes filled. -/
theorem segment_eq : s.segment render start stop = fill render run := by
  have hcombined : s.text.combined = spell 0 before ++ (spell (holes before).length run ++
      spell ((holes before).length + (holes run).length) after) := by
    rw [h.combined, hitems, spell_append, spell_append, Nat.zero_add]
  rw [TemplateSite.segment, h.filter_markers hitems hstart hstop]
  subst hstart
  rw [fillMarkers_eq s render hcombined (Nat.le_refl _) hstop, slice_eq_take_drop, Nat.sub_self,
    take_zero, nil_append]

end Between

/-- **The arguments of a call** are the expressions in the holes of its phrase. -/
theorem arguments_eq (hrun : Occupies items p run) :
    s.arguments render p = TemplateItem.arguments render run := by
  obtain ⟨before, after, hitems, hstart, hstop⟩ := hrun
  rw [TemplateSite.arguments, h.filter_markers hitems hstart hstop, TemplateItem.arguments,
    ← map_marks (holes before).length p.start run]
  exact ext_getElem? fun i => by simp [Function.comp_def]

end Lays

end TemplateText

end Phrasebook
