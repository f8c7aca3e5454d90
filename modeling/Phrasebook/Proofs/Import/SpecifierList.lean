import Phrasebook.Import.Plan
import Phrasebook.Proofs.Edit.Interleaving
import Phrasebook.Proofs.Text.CommaList

/-!
# Specifiers between braces

Names that are merged into an import statement with braces come behind the last specifier that binds a
value, with a comma before them. If there is no such specifier, the braces count as empty, and the names
come right behind the opening brace.

## Main results

* `SourceFile.mergeNamed_behind_value`, `SourceFile.mergeNamed_without_value` — the two cases.
* `SourceFile.mergeInto_keeps_list_unless_types_alone` — the specifiers stay a list with commas, unless the
  braces hold types alone; then a comma is missing before those types.
-/

namespace Phrasebook

open List Text

variable {before behind placements : List Placement} {place : Nat} {n braces clause : Node}
  {p : Placement} {t : Text}

open Text (CommaList Listing)
open CodePoint (comma)

/-! ## Nodes that are listed in a text -/

/-- **Nodes that are listed with commas** in the part of a text from an offset up to `stop`; `due` tells
whether the offset is behind a node, so that a comma is due before the next one. -/
inductive ListedIn (t : Text) (stop : Nat) : Bool → Nat → List Node → Prop
  | stop {due : Bool} {start : Nat} (hle : start ≤ stop) (hgap : (t.slice start stop).IsSpacing) :
    ListedIn t stop due start []
  | item {start : Nat} {n : Node} {rest : List Node} (hstart : start ≤ n.start)
    (hgap : (t.slice start n.start).IsSpacing) (hspan : n.start ≤ n.stop)
    (h : ListedIn t stop true n.stop rest) : ListedIn t stop false start (n :: rest)
  | separator {start place : Nat} {nodes : List Node} (hstart : start ≤ place)
    (hgap : (t.slice start place).IsSpacing) (hcomma : t[place]? = some comma)
    (h : ListedIn t stop false (place + 1) nodes) : ListedIn t stop true start nodes

lemma slice_eq_append_cons {start stop : Nat} {c : CodePoint} (hc : t[place]? = some c)
    (hstart : start ≤ place) (hstop : place < stop) :
    t.slice start stop = t.slice start place ++ c :: t.slice (place + 1) stop := by
  obtain ⟨hlt, rfl⟩ := List.getElem?_eq_some_iff.mp hc
  rw [← t.slice_append_slice hstart hstop.le, t.slice_eq_take_drop place stop,
    drop_eq_getElem_cons hlt, t.slice_eq_take_drop (place + 1) stop]
  obtain ⟨k, rfl⟩ := Nat.exists_eq_add_of_lt hstop
  rw [show place + k + 1 - place = k + 1 by omega, show place + k + 1 - (place + 1) = k by omega]
  rfl

namespace ListedIn

variable {t : Text} {stop start : Nat} {due : Bool} {nodes : List Node}

lemma le_stop (h : ListedIn t stop due start nodes) : start ≤ stop := by
  induction h with
  | stop hle => exact hle
  | item hstart _ hspan _ ih => exact (hstart.trans hspan).trans ih
  | separator hstart _ _ _ ih => exact hstart.trans ((Nat.le_succ _).trans ih)

/-- **The text of listed nodes is a list of their texts.** -/
theorem listing (h : ListedIn t stop due start nodes) :
    Listing due (nodes.map (Node.text t)) (t.slice start stop) := by
  induction h with
  | stop _ hgap => exact .stop hgap
  | item hstart hgap hspan h ih =>
    rw [← t.slice_append_slice (hstart.trans hspan) h.le_stop, ← t.slice_append_slice hstart hspan]
    exact .item hgap ih
  | separator hstart hgap hcomma h ih =>
    rw [slice_eq_append_cons hcomma hstart h.le_stop]
    exact .separator hgap ih

/-- A node that is listed lies in the braces. -/
lemma le_of_mem (h : ListedIn t stop due start nodes) (hn : n ∈ nodes) : start ≤ n.stop ∧ n.stop ≤ stop := by
  induction h with
  | stop => exact absurd hn not_mem_nil
  | item hstart _ hspan h ih =>
    rcases mem_cons.mp hn with rfl | hn
    · exact ⟨hstart.trans hspan, h.le_stop⟩
    · exact ⟨(hstart.trans hspan).trans (ih hn).1, (ih hn).2⟩
  | separator hstart _ _ _ ih => exact ⟨hstart.trans ((Nat.le_succ _).trans (ih hn).1), (ih hn).2⟩

/-- **More items behind one of the nodes.** -/
theorem insert (h : ListedIn t stop due start nodes) {front back : List Node}
    (hnodes : nodes = front ++ n :: back) {new : List Text} (hnew : new ≠ []) :
    Listing due (front.map (Node.text t) ++ n.text t :: (new ++ back.map (Node.text t)))
      (t.slice start n.stop ++ (", " ++ Text.join ", " new ++ t.slice n.stop stop)) := by
  induction h generalizing front with
  | stop => exact absurd hnodes.symm (by simp)
  | @item start first rest hstart hgap hspan h ih =>
    cases front with
    | nil =>
      obtain ⟨rfl, rfl⟩ := List.cons.inj hnodes
      rw [← t.slice_append_slice hstart hspan]
      have hrest := Listing.join_append isSpacing_blank h.listing hnew
      exact .item hgap (.separator isSpacing_nil hrest)
    | cons first' front =>
      obtain ⟨rfl, rfl⟩ := List.cons.inj hnodes
      have hle := (h.le_of_mem (mem_append_right front mem_cons_self)).1
      rw [← t.slice_append_slice (hstart.trans hspan) hle, ← t.slice_append_slice hstart hspan,
        append_assoc (_ ++ _)]
      exact .item hgap (ih rfl)
  | @separator start place nodes hstart hgap hcomma h ih =>
    subst hnodes
    have hle := (h.le_of_mem (mem_append_right front mem_cons_self)).1
    rw [slice_eq_append_cons hcomma hstart hle, append_assoc, cons_append]
    exact .separator hgap (ih rfl)

end ListedIn

/-! ## What is known of a statement -/

namespace ImportStatement

/-- Whether a specifier binds a value: it has a name and does not mark a type. -/
def bindsValue (n : Node) : Bool :=
  n.kind == "import_specifier" && !marksType n && (n.child? "name").isSome

/-- Where names can go: the clause, the braces and the last specifier. -/
def shape (s : ImportStatement) : Option Node × Option Node × Option Node :=
  (s.clause, s.braces, s.lastSpecifier)

/-- What a specifier adds to the shape of a statement. -/
lemma shape_addSpecifier (t : Text) (s : ImportStatement) (n : Node) :
    (addSpecifier t s n).shape =
      (s.clause, s.braces, if bindsValue n then some n else s.lastSpecifier) := by
  rw [addSpecifier, bindsValue]
  cases hname : n.child? "name" with
  | none => simp [shape]
  | some name =>
    by_cases hskip : n.kind != "import_specifier" || marksType n
    · rw [if_pos hskip]
      by_cases hkind : n.kind = "import_specifier" <;> simp_all [shape]
    · rw [if_neg hskip]
      simp_all [shape]

/-- The last specifier is the last one that binds a value. -/
lemma shape_foldl_addSpecifier (t : Text) (nodes : List Node) (s : ImportStatement) :
    (nodes.foldl (addSpecifier t) s).shape =
      (s.clause, s.braces, (nodes.filter bindsValue).getLast?.or s.lastSpecifier) := by
  induction nodes generalizing s with
  | nil => rfl
  | cons n nodes ih =>
    obtain ⟨hclause, hbraces, hlast⟩ : (addSpecifier t s n).clause = s.clause ∧
        (addSpecifier t s n).braces = s.braces ∧
        (addSpecifier t s n).lastSpecifier = if bindsValue n then some n else s.lastSpecifier := by
      simpa [shape] using shape_addSpecifier t s n
    rw [foldl_cons, ih, hclause, hbraces, hlast, filter_cons]
    cases bindsValue n with
    | false => rfl
    | true => cases hrest : (nodes.filter bindsValue).getLast? <;> simp [getLast?_cons, hrest]

/-- Parts of a clause other than braces leave alone where names can go. -/
lemma shape_foldl_addPart (t : Text) {parts : List Node}
    (h : ∀ part ∈ parts, part.kind ≠ "named_imports") (s : ImportStatement) :
    (parts.foldl (addPart t) s).shape = s.shape := by
  induction parts generalizing s with
  | nil => rfl
  | cons part parts ih =>
    obtain ⟨hpart, hparts⟩ := forall_mem_cons.mp h
    rw [foldl_cons, ih hparts]
    unfold addPart
    split
    · rfl
    · split <;> rfl
    · exact absurd ‹_› hpart
    · rfl

end ImportStatement

open ImportStatement (bindsValue marksType)

/-- **An import statement whose braces hold a list of specifiers**: it has one clause with one pair of
braces, and between the braces the specifiers are listed with commas. -/
structure ListsSpecifiers (t : Text) (n clause braces : Node) (listed : List Node) : Prop where
  clause_eq : n.children.filter (fun c => c.kind == "import_clause") = [clause]
  braces_eq : clause.children.filter (fun c => c.kind == "named_imports") = [braces]
  start_le : clause.start ≤ braces.start
  opening : t[braces.start]? = some ('\x7b' : CodePoint)
  closing : t[braces.stop - 1]? = some ('\x7d' : CodePoint)
  listed_eq : braces.namedChildren = listed
  isSpecifier : ∀ x ∈ listed, x.kind = "import_specifier" ∧ (x.child? "name").isSome
  listedIn : ListedIn t (braces.stop - 1) false (braces.start + 1) listed

namespace ListsSpecifiers

variable {t : Text} {n clause braces : Node} {listed : List Node} {s : ImportStatement}
  (h : ListsSpecifiers t n clause braces listed) (hs : ImportStatement.ofNode? t n = some s)

include h

/-- The specifiers that bind values are those that mark no type. -/
lemma filter_bindsValue : listed.filter bindsValue = listed.filter fun x => !marksType x := by
  refine filter_congr fun x hx => ?_
  obtain ⟨hkind, hname⟩ := h.isSpecifier x hx
  simp [bindsValue, hkind, hname]

include hs

/-- **What is known of the statement**: its clause, its braces, and the last specifier that marks no
type. -/
theorem shape_ofNode? :
    s.shape = (some clause, some braces, (listed.filter fun x => !marksType x).getLast?) := by
  rw [ImportStatement.ofNode?] at hs
  split_ifs at hs
  obtain ⟨source, -, rfl⟩ := Option.map_eq_some_iff.mp hs
  obtain ⟨front, back, hparts, hfront, hbraces, hback⟩ := filter_eq_cons_iff.mp h.braces_eq
  have hkind : braces.kind = "named_imports" := beq_iff_eq.mp hbraces
  have hpart : ∀ s : ImportStatement, (ImportStatement.addPart t s braces).shape =
      (s.clause, some braces, (listed.filter fun x => !marksType x).getLast?.or s.lastSpecifier) := by
    intro s
    rw [ImportStatement.addPart, hkind, ← h.filter_bindsValue, ← h.listed_eq]
    exact ImportStatement.shape_foldl_addSpecifier t _ _
  simp only [h.clause_eq, getLast?_singleton, Option.map_some, Option.getD_some, hparts,
    foldl_append, foldl_cons]
  rw [ImportStatement.shape_foldl_addPart t (by simpa using hback), hpart]
  have hbefore := fun s => ImportStatement.shape_foldl_addPart t (by simpa using hfront) s
  simp only [ImportStatement.shape, Prod.mk.injEq] at hbefore
  rw [(hbefore _).1, (hbefore _).2.2]
  simp

end ListsSpecifiers

/-! ## The only insertion between the braces -/

lemma map_insertionsOf (placements : List Placement) :
    (insertionsOf placements).map (fun i => (i.position, i.text)) =
      placements.map fun p => ((p.position : Int), p.text) := by
  refine ext_getElem (by simp [insertionsOf]) fun k _ _ => ?_
  simp [insertionsOf]

/-- The texts that are placed somewhere are inserted there. -/
lemma map_text_insertionsAt (placements : List Placement) (place : Nat) :
    (insertionsAt (insertionsOf placements) place).map Insertion.text =
      (placements.filter fun p => p.position = place).map Placement.text := by
  have hfilter := congrArg (fun l => (l.filter fun x => x.1 = (place : Int)).map Prod.snd)
    (map_insertionsOf placements)
  simp only [filter_map, map_map, Function.comp_def, Int.natCast_inj] at hfilter
  exact hfilter

lemma insertionsAt_eq_nil (h : ∀ p ∈ placements, p.position ≠ place) :
    insertionsAt (insertionsOf placements) place = [] := by
  have hnone : placements.filter (fun p => p.position = place) = [] := by
    simpa [filter_eq_nil_iff] using h
  rw [← map_eq_nil_iff, map_text_insertionsAt, hnone, map_nil]

/-- What alone is placed somewhere is alone inserted there. -/
lemma insertionsAt_eq_singleton (h : ∀ q ∈ before ++ behind, q.position ≠ p.position) :
    ∃ i, insertionsAt (insertionsOf (before ++ p :: behind)) p.position = [i] ∧ i.text = p.text := by
  obtain ⟨hbefore, hbehind⟩ := forall_mem_append.mp h
  have hsole : (before ++ p :: behind).filter (fun q => q.position = p.position) = [p] := by
    rw [filter_append, filter_cons, filter_eq_nil_iff.mpr (by simpa using hbefore),
      filter_eq_nil_iff.mpr (by simpa using hbehind)]
    simp
  have htexts := map_text_insertionsAt (before ++ p :: behind) p.position
  rw [hsole] at htexts
  exact map_eq_singleton_iff.mp htexts

/-- Placements in the text can be inserted. -/
lemma exists_applyInsertions_insertionsOf (h : ∀ p ∈ placements, p.position ≤ t.length) :
    ∃ out, applyInsertions t (insertionsOf placements) = .ok out := by
  refine exists_applyInsertions_eq_ok_iff.mpr fun i hi => ?_
  have hpair := mem_map_of_mem (f := fun i : Insertion => (i.position, i.text)) hi
  rw [map_insertionsOf] at hpair
  obtain ⟨p, hp, heq⟩ := mem_map.mp hpair
  obtain ⟨hposition, -⟩ := Prod.mk.inj heq
  have hle := h p hp
  omega

/-- **What stands between braces after insertions.** -/
structure HoldsBetween (braces : Node) (insertions : List Insertion) (out inner : Text) : Prop where
  opening : out[movedTo insertions braces.start]? = some ('\x7b' : CodePoint)
  closing : out[movedTo insertions (braces.stop - 1)]? = some ('\x7d' : CodePoint)
  slice_eq : out.slice (movedTo insertions braces.start + 1) (movedTo insertions (braces.stop - 1)) = inner

/-- What stands between braces, parted by an insertion. -/
def Placement.between (t : Text) (braces : Node) (p : Placement) : Text :=
  t.slice (braces.start + 1) p.position ++ p.text ++ t.slice p.position (braces.stop - 1)

/-- An insertion between braces. -/
def Placement.IsBetween (braces : Node) (p : Placement) : Prop :=
  braces.start < p.position ∧ p.position ≤ braces.stop - 1

/-- An insertion into a text, outside of braces. -/
def Placement.IsOutside (t : Text) (braces : Node) (p : Placement) : Prop :=
  (p.position ≤ braces.start ∨ braces.stop ≤ p.position) ∧ p.position ≤ t.length

lemma Placement.IsOutside.ne (h : p.IsOutside t braces) (hstart : braces.start < place)
    (hstop : place ≤ braces.stop - 1) : p.position ≠ place := by
  have houtside := h.1
  omega

/-- **The only insertion between the braces** parts what stands there. -/
theorem ListsSpecifiers.exists_holdsBetween {listed : List Node}
    (h : ListsSpecifiers t n clause braces listed) (hp : p.IsBetween braces)
    (hothers : ∀ q ∈ before ++ behind, q.IsOutside t braces) :
    ∃ out, applyInsertions t (insertionsOf (before ++ p :: behind)) = .ok out ∧
      HoldsBetween braces (insertionsOf (before ++ p :: behind)) out (p.between t braces) := by
  obtain ⟨hstart, hstop⟩ := hp
  obtain ⟨hlen, hclosing⟩ := List.getElem?_eq_some_iff.mp h.closing
  obtain ⟨hlen', hopening⟩ := List.getElem?_eq_some_iff.mp h.opening
  have hcases : ∀ q ∈ before ++ p :: behind, q = p ∨ q.IsOutside t braces := by
    simp only [mem_append, mem_cons] at hothers ⊢
    rintro q (hq | rfl | hq)
    · exact .inr (hothers q (.inl hq))
    · exact .inl rfl
    · exact .inr (hothers q (.inr hq))
  have hrange : ∀ q ∈ before ++ p :: behind, q.position ≤ t.length := by
    intro q hq
    rcases hcases q hq with rfl | houtside
    · omega
    · exact houtside.2
  have hnone : ∀ place, braces.start < place → place ≤ braces.stop - 1 → place ≠ p.position →
      insertionsAt (insertionsOf (before ++ p :: behind)) place = [] := by
    intro place hplace hplace' hne
    refine insertionsAt_eq_nil fun q hq => ?_
    rcases hcases q hq with rfl | houtside
    · exact hne.symm
    · exact houtside.ne hplace hplace'
  obtain ⟨out, hout⟩ := exists_applyInsertions_insertionsOf hrange
  obtain ⟨i, hsole, htext⟩ := insertionsAt_eq_singleton fun q hq => (hothers q hq).ne hstart hstop
  refine ⟨out, hout, ⟨?_, ?_, ?_⟩⟩
  · rw [getElem?_movedTo hout hlen', hopening]
  · rw [getElem?_movedTo hout hlen, hclosing]
  · rw [slice_movedTo hout hstart hstop hlen hsole hnone, htext, Placement.between]

/-! ## Merging names -/

namespace SourceFile

/-- What is merged into a statement besides names stands before its clause. -/
lemma position_of_mem_mergeDefault {s : ImportStatement} (hclause : s.clause = some clause)
    {default : Option ImportRequirement} (hp : p ∈ mergeDefault s default) : p.position = clause.start := by
  unfold mergeDefault at hp
  split at hp
  · obtain rfl := Option.some.inj (hclause.symm.trans ‹s.clause = some _›)
    rw [mem_singleton.mp hp]
  · exact absurd hp not_mem_nil

section Named

variable {t : Text} {n clause braces : Node} {listed : List Node} {s : ImportStatement}
  (h : ListsSpecifiers t n clause braces listed) (hs : ImportStatement.ofNode? t n = some s)

include h hs

/-- Names between the braces are the only insertion there, although a default export may be merged
into the statement along with them. -/
lemma exists_holdsBetween_mergeInto {wanted : List ImportRequirement}
    (hp : mergeNamed s (wanted.filter fun r => r.kind == .named) = [p]) (hbetween : p.IsBetween braces)
    (hothers : ∀ q ∈ before ++ behind, q.IsOutside t braces) :
    ∃ out, applyInsertions t (insertionsOf (before ++ (mergeInto s wanted).1 ++ behind)) = .ok out ∧
      HoldsBetween braces (insertionsOf (before ++ (mergeInto s wanted).1 ++ behind)) out
        (p.between t braces) := by
  have hclause : s.clause = some clause := congrArg (fun shape => shape.1) (h.shape_ofNode? hs)
  obtain ⟨default, hmerged⟩ : ∃ default, (mergeInto s wanted).1 = p :: mergeDefault s default := by
    rw [mergeInto, hp]
    exact ⟨_, rfl⟩
  have hsplit : before ++ (mergeInto s wanted).1 ++ behind =
      before ++ p :: (mergeDefault s default ++ behind) := by simp [hmerged]
  rw [hsplit]
  refine h.exists_holdsBetween hbetween fun q hq => ?_
  simp only [mem_append] at hq hothers
  rcases hq with hq | hq | hq
  · exact hothers q (.inl hq)
  · have hposition := position_of_mem_mergeDefault hclause hq
    have hlen := (List.getElem?_eq_some_iff.mp h.opening).1
    have hle := h.start_le
    exact ⟨.inl (by omega), by omega⟩
  · exact hothers q (.inr hq)

variable {named : List ImportRequirement} (hnamed : named ≠ [])

include hnamed

/-- **Names behind a value** are listed among the specifiers. -/
theorem mergeNamed_behind_value (hvalue : ∃ x ∈ listed, marksType x = false) :
    ∃ p, mergeNamed s named = [p] ∧ p.IsBetween braces ∧
      ∃ front back, listed.map (Node.text t) = front ++ back ∧
        CommaList (front ++ named.map ImportRequirement.specifier ++ back) (p.between t braces) := by
  obtain ⟨x, front, hlast⟩ : ∃ x front, listed.filter (fun x => !marksType x) = front ++ [x] := by
    obtain ⟨x, hx, htype⟩ := hvalue
    have hmem : x ∈ listed.filter fun x => !marksType x := mem_filter.mpr ⟨hx, by simp [htype]⟩
    exact ⟨_, _, (dropLast_append_getLast (ne_nil_of_mem hmem)).symm⟩
  have hx : x ∈ listed :=
    (mem_filter.mp (hlast ▸ mem_append_right front (mem_singleton_self x))).1
  have hknown : s.lastSpecifier = some x := by
    have hshape := congrArg (fun shape => shape.2.2) (h.shape_ofNode? hs)
    simpa [ImportStatement.shape, hlast] using hshape
  obtain ⟨r, named, rfl⟩ := exists_cons_of_ne_nil hnamed
  obtain ⟨front, back, hlisted⟩ := append_of_mem hx
  refine ⟨⟨x.stop, ", " ++ specifiers (r :: named), false⟩, by simp only [mergeNamed, hknown],
    h.listedIn.le_of_mem hx, (front ++ [x]).map (Node.text t), back.map (Node.text t), ?_, ?_⟩
  · simp [hlisted]
  · have hlist := h.listedIn.insert hlisted
      (cons_ne_nil r.specifier (named.map ImportRequirement.specifier))
    simpa [CommaList, Placement.between, specifiers] using hlist

/-- **Names where no value is** come right behind the opening brace. -/
theorem mergeNamed_without_value (hvalue : ∀ x ∈ listed, marksType x) :
    ∃ p, mergeNamed s named = [p] ∧ p.IsBetween braces ∧
      p.between t braces = Text.ofString " " ++
        Text.join ", " (named.map ImportRequirement.specifier) ++ Text.ofString " " ++
          t.slice (braces.start + 1) (braces.stop - 1) := by
  have hnone : listed.filter (fun x => !marksType x) = [] := by
    simpa [filter_eq_nil_iff] using hvalue
  have hshape := h.shape_ofNode? hs
  rw [hnone] at hshape
  obtain ⟨-, hbraces, hlast⟩ : s.clause = _ ∧ s.braces = some braces ∧ s.lastSpecifier = none := by
    simpa [ImportStatement.shape] using hshape
  obtain ⟨r, named, rfl⟩ := exists_cons_of_ne_nil hnamed
  refine ⟨⟨braces.start + 1, " " ++ specifiers (r :: named) ++ " ", false⟩,
    by simp only [mergeNamed, hlast, hbraces], ⟨Nat.lt_succ_self _, h.listedIn.le_stop⟩, ?_⟩
  simp [Placement.between, Text.slice, specifiers]

end Named

/-- **When a list of specifiers stays one.** Names that are merged into a statement whose braces hold a
list of specifiers are listed among the old ones, with commas between all of them, if the braces are
empty or some specifier marks no type. If they hold types and nothing else, a comma is missing, and what
stands between the braces is no list of the specifiers any more, in whatever order. Other insertions
may be made outside of the braces.

**Proof sketch.** The names are the only insertion between the braces, so these hold what they held,
parted by the new names. They come behind one of the specifiers, with a comma (`ListedIn.insert`), or at
the beginning, where nothing separates them from a type (`Text.not_commaList_of_unseparated`). -/
theorem mergeInto_keeps_list_unless_types_alone (t : Text) (n clause braces : Node) (listed : List Node)
    (h : ListsSpecifiers t n clause braces listed) (s : ImportStatement)
    (hs : ImportStatement.ofNode? t n = some s) (wanted : List ImportRequirement)
    (hwanted : ∃ r ∈ wanted, r.kind = .named) (before behind : List Placement)
    (hothers : ∀ p ∈ before ++ behind, p.IsOutside t braces) :
    let old := listed.map (Node.text t)
    let new := (wanted.filter fun r => r.kind == .named).map ImportRequirement.specifier
    let insertions := insertionsOf (before ++ (mergeInto s wanted).1 ++ behind)
    ∃ out inner, applyInsertions t insertions = .ok out ∧ HoldsBetween braces insertions out inner ∧
      ((listed = [] ∨ ∃ x ∈ listed, marksType x = false) →
        ∃ front back, old = front ++ back ∧ CommaList (front ++ new ++ back) inner) ∧
      ((∀ x ∈ old ++ new, x.IsItem) → listed ≠ [] → (∀ x ∈ listed, marksType x = true) →
        ∀ items, items.Perm (old ++ new) → ¬CommaList items inner) := by
  intro old new insertions
  have hnamed : wanted.filter (fun r => r.kind == .named) ≠ [] := by
    obtain ⟨r, hr, hkind⟩ := hwanted
    exact ne_nil_of_mem (mem_filter.mpr ⟨hr, by simp [hkind]⟩)
  have hnew : new ≠ [] := by simpa [new] using hnamed
  by_cases hvalue : ∃ x ∈ listed, marksType x = false
  · obtain ⟨p, hp, hbetween, hlists⟩ := mergeNamed_behind_value h hs hnamed hvalue
    obtain ⟨out, hout, hholds⟩ := exists_holdsBetween_mergeInto h hs hp hbetween hothers
    refine ⟨out, _, hout, hholds, fun _ => hlists, fun _ _ htypes => ?_⟩
    obtain ⟨x, hx, htype⟩ := hvalue
    simp [htypes x hx] at htype
  · have htypes : ∀ x ∈ listed, marksType x = true := by simpa using hvalue
    obtain ⟨p, hp, hbetween, hinner⟩ := mergeNamed_without_value h hs hnamed htypes
    obtain ⟨out, hout, hholds⟩ := exists_holdsBetween_mergeInto h hs hp hbetween hothers
    rw [hinner] at hholds
    refine ⟨out, _, hout, hholds, fun hempty => ?_, fun hitems hne _ items hperm => ?_⟩
    · have hnil : listed = [] := hempty.resolve_right hvalue
      have hgap : Listing true [] (Text.ofString " " ++ t.slice (braces.start + 1) (braces.stop - 1)) := by
        have hlisted := h.listedIn
        rw [hnil] at hlisted
        cases hlisted with
        | stop _ hgap => exact .stop (isSpacing_blank.append hgap)
      refine ⟨[], [], by simp [old, hnil], ?_⟩
      simpa using Listing.join_append isSpacing_blank hgap hnew
    · exact not_commaList_of_unseparated h.listedIn.listing (by simpa using hne) hnew hitems hperm

end SourceFile

/-- A specifier of a type, in the text of `typesAlone`. -/
def typeSpecifier : Node :=
  .mk { kind := "import_specifier", start := 9, stop := 15 } [
    .mk { kind := "type", named := false, start := 9, stop := 13 } [],
    .mk { kind := "identifier", start := 14, stop := 15, field := some "name" } []]

/-- The braces around it. -/
def typeBraces : Node := .mk { kind := "named_imports", start := 7, stop := 17 } [typeSpecifier]

/-- The clause with these braces. -/
def typeClause : Node := .mk { kind := "import_clause", start := 7, stop := 17 } [typeBraces]

/-- An import statement whose braces hold a type and nothing else. -/
def typesAlone : ImportStatement where
  node := .mk { kind := "import_statement", start := 0, stop := 27 } [
    typeClause, .mk { kind := "string", start := 23, stop := 26, field := some "source" } []]
  source := "m"
  quote := "\""
  semicolon := true
  typeOnly := false
  clause := some typeClause
  braces := some typeBraces

/-- The text of that statement. -/
def typesAloneText : Text := "import \x7b type T \x7d from \"m\";"

/-- A name that is merged into braces with a type. -/
theorem mergeInto_keeps_list_unless_types_alone_single :
    let insertions := insertionsOf (SourceFile.mergeInto typesAlone [{ source := "m", name := "t" }]).1
    ListsSpecifiers typesAloneText typesAlone.node typeClause typeBraces [typeSpecifier] ∧
      ImportStatement.ofNode? typesAloneText typesAlone.node = some typesAlone ∧
      applyInsertions typesAloneText insertions = .ok "import \x7b t  type T \x7d from \"m\";" ∧
      ¬CommaList ["type T", "t"] " t  type T " ∧ ¬CommaList ["t", "type T"] " t  type T " := by
  intro insertions
  have hlists : ListsSpecifiers typesAloneText typesAlone.node typeClause typeBraces [typeSpecifier] := by
    refine ⟨rfl, rfl, by decide, by decide, by decide, rfl, by decide, ?_⟩
    exact .item (by decide) (by decide) (by decide) (.stop (by decide) (by decide))
  have hnode : ImportStatement.ofNode? typesAloneText typesAlone.node = some typesAlone := by rfl
  have hresult : applyInsertions typesAloneText insertions =
      .ok "import \x7b t  type T \x7d from \"m\";" := by rfl
  obtain ⟨out, inner, hout, hholds, -, hbroken⟩ :=
    SourceFile.mergeInto_keeps_list_unless_types_alone typesAloneText typesAlone.node typeClause typeBraces
      [typeSpecifier] hlists typesAlone hnode [{ source := "m", name := "t" }]
      ⟨_, mem_cons_self, rfl⟩ [] [] (by simp)
  rw [nil_append, append_nil] at hout hholds
  obtain rfl := Except.ok.inj (hout.symm.trans hresult)
  have hinner : inner = " t  type T " := hholds.slice_eq.symm.trans (by rfl)
  have hitems : ∀ x ∈ [Text.ofString "type T", Text.ofString "t"], x.IsItem := by
    simp only [forall_mem_cons, not_mem_nil, false_implies, implies_true, and_true]
    exact ⟨⟨'T', by decide, by decide⟩, ⟨'t', by decide, by decide⟩⟩
  have hno := hbroken hitems (cons_ne_nil _ _) (by decide)
  rw [hinner] at hno
  exact ⟨hlists, hnode, hresult, hno _ (.refl _), hno _ (.swap _ _ _)⟩

end Phrasebook
