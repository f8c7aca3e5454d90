import Mathlib.Data.List.Nodup
import Mathlib.Data.List.Perm.Basic
import Phrasebook.Proofs.Site.Outermost
import Phrasebook.Proofs.Site.Pieces

/-!
# Sites in sites

An expression in a template literal may hold sites, and these may hold others. A span of the source is
rendered by putting replacements in the place of its outermost sites, and the replacement of a template
literal is written from the renderings of its expressions. The depth to which this is done is bounded in
the model; here it is a relation that goes down as far as sites do, and keeps the account of the sites whose
replacements have been used.

## Main results

* `Nests.exists_renders`, `Nests.exists_builds` — where sites nest as in a syntax tree, the model's
  renderings are in the relation.
* `Nests.exists_used` — each site is used once.
-/

namespace Phrasebook

open List

variable {hi lo : Nat} {o : Options} {x : PendingSite} {l : List PendingEdit}
  {pending : List PendingSite}

/-- A site, with the name of the function that its calls call. -/
structure PendingSite where
  site : Site
  callName : Text

namespace PendingSite

/-- Where the site begins. -/
def start (x : PendingSite) : Nat := x.site.cursor.node.start

/-- Where it ends. -/
def stop (x : PendingSite) : Nat := x.site.cursor.node.stop

/-- Whether the site lies within a span. -/
def within (x : PendingSite) (lo hi : Nat) : Bool := lo ≤ x.start && x.stop ≤ hi

/-- The edit of the site. -/
def edit (o : Options) (x : PendingSite) : PendingEdit :=
  ⟨x.start, x.stop, x.site.replacement o x.callName⟩

/-- The items of the site, if it is a template literal. -/
def items (t : Text) (x : PendingSite) : List TemplateItem := TemplateText.layout t x.site.cursor.node

/-- Where the expressions of a template literal stand; other sites have none. -/
def holes (t : Text) (x : PendingSite) : List (Nat × Nat) :=
  match x.site.literal with
  | .template _ => TemplateItem.holes (x.items t)
  | _ => []

lemma within_iff : x.within lo hi ↔ lo ≤ x.start ∧ x.stop ≤ hi := by
  rw [within, Bool.and_eq_true_iff, decide_eq_true_iff, decide_eq_true_iff]

lemma holes_of_fixed {text : Text} (h : x.site.replacement o x.callName = .fixed text) (t : Text) :
    x.holes t = [] := by
  rw [holes]
  rw [Site.replacement] at h
  cases hliteral : x.site.literal with
  | template s => simp [hliteral] at h
  | quoted raw decoded => rfl
  | value raw => rfl
  | markup raw => rfl

/-- The holes of a site are those of its template. -/
lemma holes_of_template {s : TemplateSite} (h : x.site.replacement o x.callName = .template s) (t : Text) :
    x.holes t = TemplateItem.holes (x.items t) := by
  rw [holes]
  rw [Site.replacement] at h
  cases hliteral : x.site.literal with
  | template s => rfl
  | quoted raw decoded => simp [hliteral] at h
  | value raw => simp [hliteral] at h
  | markup raw => simp [hliteral] at h

end PendingSite

/-- The pending sites in a span. -/
def sitesIn (pending : List PendingSite) (lo hi : Nat) : List PendingSite :=
  pending.filter fun x => x.within lo hi

lemma mem_sitesIn : x ∈ sitesIn pending lo hi ↔ x ∈ pending ∧ lo ≤ x.start ∧ x.stop ≤ hi := by
  rw [sitesIn, mem_filter, PendingSite.within_iff]

/-! ## Renderings -/

section Relations

variable (o : Options) (t : Text) (pending : List PendingSite)

mutual

/-- **What a span is rendered as**, with the sites whose replacements are used. Without sites it is what
the source says. Else there is a first outermost site: what stands before it is kept, its replacement takes
its place, and what stands behind it is rendered in the same way. -/
inductive Renders : Nat → Nat → Text → List PendingSite → Prop where
  | plain {lo hi : Nat} : sitesIn pending lo hi = [] → Renders lo hi (t.slice lo hi) []
  | site {lo hi : Nat} {x : PendingSite} {text rest : Text} {used used' : List PendingSite} :
    x ∈ sitesIn pending lo hi →
      (∀ y ∈ sitesIn pending lo hi, y.within x.start x.stop = true ∨ x.stop ≤ y.start) →
      Builds x text used → Renders x.stop hi rest used' →
      Renders lo hi (t.slice lo x.start ++ text ++ rest) (used ++ used')

/-- **What takes the place of a site**, with the sites whose replacements are used: its own, and for a
template literal those that are used in its expressions. -/
inductive Builds : PendingSite → Text → List PendingSite → Prop where
  | fixed {x : PendingSite} {text : Text} :
    x.site.replacement o x.callName = .fixed text → Builds x text [x]
  | template {x : PendingSite} {s : TemplateSite} {text : Text} {render : TemplateSite.Renderer}
    {used : Nat × Nat → List PendingSite} :
    x.site.replacement o x.callName = .template s →
      (∀ h ∈ TemplateItem.holes (x.items t), Renders h.1 h.2 (render h.1 h.2) (used h)) →
      s.Written o (x.items t) render text →
      Builds x text (x :: (TemplateItem.holes (x.items t)).flatMap used)

end

end Relations

/-! ## Sites that nest -/

/-- One site stands in a hole of another, or behind it. -/
def PendingSite.HoldsOrPrecedes (t : Text) (a b : PendingSite) : Prop :=
  (∃ g ∈ a.holes t, g.1 ≤ b.start ∧ b.stop ≤ g.2) ∨ a.stop ≤ b.start

/-- Sites that nest: the later one of two stands in a hole of the other or behind it. The holes of a site
follow each other inside of it, and the replacement of a template literal is written from its pieces. -/
structure Nests (o : Options) (t : Text) (pending : List PendingSite) : Prop where
  lt : ∀ x ∈ pending, x.start < x.stop
  /-- The later one of two sites stands in a hole of the other or behind it. -/
  apart : pending.Pairwise (PendingSite.HoldsOrPrecedes t)
  inside : ∀ x ∈ pending, ∀ h ∈ x.holes t, x.start < h.1 ∧ h.2 ≤ x.stop
  ordered : ∀ x ∈ pending, (x.holes t).Pairwise fun g h => g.2 ≤ h.1
  /-- The replacement of a template literal is written from its pieces. -/
  written : ∀ x ∈ pending, ∀ s, x.site.replacement o x.callName = .template s →
    ∀ render, s.Written o (x.items t) render (s.build o render)

/-- The first outermost site of a span: all others in the span stand in it or behind it, and the outermost
edits are its own and those behind it. -/
structure Leads (o : Options) (pending : List PendingSite) (lo hi : Nat) (x : PendingSite) : Prop where
  mem : x ∈ sitesIn pending lo hi
  /-- Other sites in the span stand in it or behind it. -/
  others : ∀ y ∈ sitesIn pending lo hi, y.within x.start x.stop = true ∨ x.stop ≤ y.start
  /-- The sites of the span are those in it and those behind it. -/
  perm : (sitesIn pending x.start x.stop ++ sitesIn pending x.stop hi).Perm (sitesIn pending lo hi)
  dropNested_eq : dropNested none ((sitesIn pending lo hi).map (PendingSite.edit o)) =
    x.edit o :: dropNested none ((sitesIn pending x.stop hi).map (PendingSite.edit o))

/-- Behind the first outermost site of a span there are fewer sites. -/
lemma Leads.length_behind_lt (h : Leads o pending lo hi x) :
    (sitesIn pending x.stop hi).length < (sitesIn pending lo hi).length := by
  have hself : x ∈ sitesIn pending x.start x.stop :=
    mem_sitesIn.mpr ⟨(mem_sitesIn.mp h.mem).1, le_refl _, le_refl _⟩
  have hpos := length_pos_of_mem hself
  have hlength := h.perm.length_eq
  rw [length_append] at hlength
  omega

/-- Edits behind the last one that was kept, where all begin one after the other: those inside of it are
left out. -/
lemma dropNested_some {k : PendingEdit} (hincreasing : l.Pairwise fun a b => a.start < b.start)
    (hlt : ∀ e ∈ l, e.start < e.stop) (h : ∀ e ∈ l, e.within k.start k.stop ∨ k.stop ≤ e.start) :
    dropNested (some k) l = dropNested none (l.filter fun e => k.stop ≤ e.start) := by
  induction l with
  | nil => rfl
  | cons e rest ih =>
    obtain ⟨hnext, hincreasing'⟩ := pairwise_cons.mp hincreasing
    have hpos := hlt e mem_cons_self
    rcases h e mem_cons_self with hinside | hbehind
    · have hinside' := hinside
      rw [PendingEdit.within, Bool.and_eq_true_iff, decide_eq_true_iff, decide_eq_true_iff] at hinside'
      rw [dropNested, if_pos (by simpa using hinside), filter_cons_of_neg (by simp; omega)]
      exact ih hincreasing' (fun x hx => hlt x (mem_cons_of_mem e hx))
        fun x hx => h x (mem_cons_of_mem e hx)
    · -- what comes behind an edit that is kept begins behind it, and so do all later ones
      have hrest : rest.filter (fun x => k.stop ≤ x.start) = rest := by
        refine filter_eq_self.mpr fun x hx => ?_
        have hx' := hnext x hx
        simp only [decide_eq_true_eq]
        omega
      have houtside : ¬ (some k).any (fun kept => e.within kept.start kept.stop) = true := by
        simp only [Option.any_some, PendingEdit.within, Bool.and_eq_true, decide_eq_true_eq]
        omega
      rw [dropNested, if_neg houtside, filter_cons_of_pos (by simpa using hbehind), hrest]
      rfl

/-- Edits that begin one after the other are in order already. -/
lemma outermost_of_increasing
    (h : l.Pairwise fun a b => a.start < b.start) : outermost l = dropNested none l := by
  have hsorted : l = sortAscending PendingEdit.orderKey l := by
    refine eq_of_perm_of_increasing (fun e => (e.start : Int)) (sortAscending_perm _ l).symm
      (h.imp Int.ofNat_lt.mpr) ((pairwise_sortAscending _ l).imp fun hle => ?_)
    have hkeys := PendingEdit.of_keysLe hle
    omega
  rw [outermost, ← hsorted]

namespace Nests

variable {o : Options} {t : Text} {pending : List PendingSite} (h : Nests o t pending)

include h

lemma increasing : pending.Pairwise fun a b => a.start < b.start := by
  refine h.apart.imp_of_mem fun {a b} ha _ hab => ?_
  rcases hab with ⟨g, hg, hstart, -⟩ | hbehind
  · exact lt_of_lt_of_le (h.inside a ha g hg).1 hstart
  · exact lt_of_lt_of_le (h.lt a ha) hbehind

lemma nodup : pending.Nodup :=
  h.increasing.imp fun hlt heq => absurd (heq ▸ hlt) (lt_irrefl _)

lemma nodup_sitesIn (lo hi : Nat) : (sitesIn pending lo hi).Nodup := h.nodup.filter _

/-- A site in another one is this one, or stands in one of its holes. -/
lemma eq_or_mem_hole {y : PendingSite} (hx : x ∈ pending) (hy : y ∈ pending)
    (hwithin : x.start ≤ y.start ∧ y.stop ≤ x.stop) :
    y = x ∨ ∃ g ∈ x.holes t, g.1 ≤ y.start ∧ y.stop ≤ g.2 := by
  have hposx := h.lt x hx
  have hposy := h.lt y hy
  -- of two different sites one comes first, and it is not the inner one
  have heither : y = x ∨ x.HoldsOrPrecedes t y ∨ y.HoldsOrPrecedes t x :=
    List.Pairwise.forall_of_forall_of_flip
      (R := fun x y => y = x ∨ x.HoldsOrPrecedes t y ∨ y.HoldsOrPrecedes t x) (fun _ _ => .inl rfl)
      (h.apart.imp fun hab => .inr (.inl hab)) (h.apart.imp fun hab => .inr (.inr hab)) hx hy
  rcases heither with rfl | (hhole | hbehind) | (⟨g, hg, hstart, -⟩ | hbehind)
  · exact .inl rfl
  · exact .inr hhole
  · omega
  · have hinside := h.inside y hy g hg
    omega
  · omega

/-- **The sites in a site** are itself and those in its holes. -/
theorem perm_holes (hx : x ∈ pending) :
    (x :: (x.holes t).flatMap fun g => sitesIn pending g.1 g.2).Perm (sitesIn pending x.start x.stop) := by
  have hnodup : (x :: (x.holes t).flatMap fun g => sitesIn pending g.1 g.2).Nodup := by
    refine nodup_cons.mpr ⟨fun hmem => ?_, nodup_flatMap.mpr
      ⟨fun g _ => h.nodup_sitesIn g.1 g.2, (h.ordered x hx).imp fun {g g'} hgg y hy hy' => ?_⟩⟩
    · obtain ⟨g, hg, hxg⟩ := mem_flatMap.mp hmem
      have hinside := h.inside x hx g hg
      have hbounds := mem_sitesIn.mp hxg
      omega
    · have hy := mem_sitesIn.mp hy
      have hy' := mem_sitesIn.mp hy'
      have hpos := h.lt y hy.1
      omega
  refine (perm_ext_iff_of_nodup hnodup (h.nodup_sitesIn _ _)).mpr fun y => ?_
  simp only [mem_cons, mem_flatMap, mem_sitesIn]
  constructor
  · rintro (rfl | ⟨g, hg, hy, hstart, hstop⟩)
    · exact ⟨hx, le_refl _, le_refl _⟩
    · have hinside := h.inside x hx g hg
      exact ⟨hy, by omega, by omega⟩
  · rintro ⟨hy, hwithin⟩
    refine (h.eq_or_mem_hole hx hy hwithin).imp_right ?_
    rintro ⟨g, hg, hbounds⟩
    exact ⟨g, hg, hy, hbounds⟩

/-- **A span with sites has a first outermost one.** -/
theorem exists_leads (hne : sitesIn pending lo hi ≠ []) : ∃ x, Leads o pending lo hi x := by
  obtain ⟨x, rest, hlist⟩ := exists_cons_of_ne_nil hne
  have hmem : x ∈ sitesIn pending lo hi := hlist ▸ mem_cons_self
  obtain ⟨hx, hlo, hhi⟩ := mem_sitesIn.mp hmem
  have hpos := h.lt x hx
  have hsub : (sitesIn pending lo hi).Sublist pending := filter_sublist
  -- what comes later in the span stands in the first site or behind it
  have hnext := (pairwise_cons.mp (hlist ▸ h.apart.sublist hsub)).1
  have hlater : ∀ y ∈ rest, y.within x.start x.stop ∨ x.stop ≤ y.start := by
    intro y hy
    refine (hnext y hy).imp_left ?_
    rintro ⟨g, hg, hstart, hstop⟩
    have hinside := h.inside x hx g hg
    exact PendingSite.within_iff.mpr ⟨by omega, by omega⟩
  have hothers : ∀ y ∈ sitesIn pending lo hi, y.within x.start x.stop ∨ x.stop ≤ y.start := by
    rw [hlist]
    rintro y (_ | ⟨_, hy⟩)
    · exact .inl (PendingSite.within_iff.mpr ⟨le_refl _, le_refl _⟩)
    · exact hlater y hy
  refine ⟨x, hmem, hothers, ?_, ?_⟩
  · have hnodup : (sitesIn pending x.start x.stop ++ sitesIn pending x.stop hi).Nodup := by
      refine nodup_append.mpr ⟨h.nodup_sitesIn _ _, h.nodup_sitesIn _ _, ?_⟩
      rintro y hy z hz rfl
      have hy := mem_sitesIn.mp hy
      have hz := mem_sitesIn.mp hz
      have hposy := h.lt y hy.1
      omega
    refine (perm_ext_iff_of_nodup hnodup (h.nodup_sitesIn _ _)).mpr fun y => ?_
    rw [mem_append, mem_sitesIn, mem_sitesIn]
    constructor
    · rintro (⟨hy, hstart, hstop⟩ | ⟨hy, hstart, hstop⟩)
      · exact mem_sitesIn.mpr ⟨hy, by omega, by omega⟩
      · exact mem_sitesIn.mpr ⟨hy, by omega, hstop⟩
    · intro hy
      obtain ⟨hy', -, hstop⟩ := mem_sitesIn.mp hy
      rcases hothers y hy with hinside | hbehind
      · exact .inl ⟨hy', PendingSite.within_iff.mp hinside⟩
      · exact .inr ⟨hy', hbehind, hstop⟩
  · -- those behind the first site are the ones in the span that begin behind it
    have hbehind : sitesIn pending x.stop hi = rest.filter fun y => x.stop ≤ y.start := by
      have hfilter : sitesIn pending x.stop hi =
          (sitesIn pending lo hi).filter fun y => x.stop ≤ y.start := by
        rw [sitesIn, sitesIn, filter_filter]
        refine filter_congr fun y _ => ?_
        rw [Bool.eq_iff_iff, Bool.and_eq_true_iff, decide_eq_true_iff, PendingSite.within_iff,
          PendingSite.within_iff]
        omega
      rw [hfilter, hlist, filter_cons_of_neg (by simpa using hpos)]
    have hincreasing := (pairwise_cons.mp (hlist ▸ h.increasing.sublist hsub)).2
    have hmem' : ∀ y ∈ rest, y ∈ pending := fun y hy => hsub.subset (hlist ▸ mem_cons_of_mem x hy)
    rw [hlist, hbehind, map_cons, dropNested, if_neg (by simp), dropNested_some, filter_map]
    · rfl
    · exact pairwise_map.mpr hincreasing
    · exact forall_mem_map.mpr fun y hy => h.lt y (hmem' y hy)
    · exact forall_mem_map.mpr hlater

/-- The outermost edits of a span. -/
lemma outermost_eq (lo hi : Nat) :
    outermost ((pending.map (PendingSite.edit o)).filter fun e => e.within lo hi) =
      dropNested none ((sitesIn pending lo hi).map (PendingSite.edit o)) := by
  have hfilter : (pending.map (PendingSite.edit o)).filter (fun e => e.within lo hi) =
      (sitesIn pending lo hi).map (PendingSite.edit o) := filter_map
  rw [hfilter]
  exact outermost_of_increasing (pairwise_map.mpr (h.increasing.sublist filter_sublist))

/-- Going through a span, from each first outermost site to what stands behind it. -/
lemma span_induction {motive : Nat → Nat → Prop} (hnil : ∀ lo hi, sitesIn pending lo hi = [] → motive lo hi)
    (hlead : ∀ lo hi x, Leads o pending lo hi x → motive x.stop hi → motive lo hi) (lo hi : Nat) :
    motive lo hi := by
  induction hn : (sitesIn pending lo hi).length using Nat.strong_induction_on generalizing lo with
  | _ n ih =>
    by_cases hempty : sitesIn pending lo hi = []
    · exact hnil lo hi hempty
    · obtain ⟨x, hx⟩ := h.exists_leads hempty
      exact hlead lo hi x hx (ih _ (hn ▸ hx.length_behind_lt) x.stop rfl)

/-! ## What is rendered -/

/-- **What takes the place of a site**, if spans with few sites are rendered as they should be.

**Proof sketch.** The site itself stands in none of its holes, so these have fewer sites. -/
theorem exists_builds {depth : Nat}
    (hrender : ∀ lo hi, (sitesIn pending lo hi).length ≤ depth → ∃ used,
      Renders o t pending lo hi (renderSpan o t (pending.map (PendingSite.edit o)) depth lo hi) used ∧
        used.Perm (sitesIn pending lo hi))
    (hx : x ∈ pending) (hcount : (sitesIn pending x.start x.stop).length ≤ depth + 1) :
    ∃ used, Builds o t pending x ((x.edit o).replacement.build o
        (renderSpan o t (pending.map (PendingSite.edit o)) depth)) used ∧
      used.Perm (sitesIn pending x.start x.stop) := by
  have hperm := h.perm_holes hx
  simp only [PendingSite.edit]
  cases hreplacement : x.site.replacement o x.callName with
  | fixed text =>
    rw [PendingSite.holes_of_fixed hreplacement] at hperm
    exact ⟨[x], .fixed hreplacement, hperm⟩
  | template s =>
    rw [PendingSite.holes_of_template hreplacement] at hperm
    have hfew : ∀ g ∈ TemplateItem.holes (x.items t), (sitesIn pending g.1 g.2).length ≤ depth := by
      intro g hg
      have hsubset : sitesIn pending g.1 g.2 ⊆
          (TemplateItem.holes (x.items t)).flatMap fun g => sitesIn pending g.1 g.2 :=
        fun y hy => mem_flatMap.mpr ⟨g, hg, hy⟩
      have hle := (subperm_of_subset (h.nodup_sitesIn g.1 g.2) hsubset).length_le
      have hlength := hperm.length_eq
      rw [length_cons] at hlength
      omega
    have hholes : ∀ g : Nat × Nat, ∃ used, g ∈ TemplateItem.holes (x.items t) →
        Renders o t pending g.1 g.2 (renderSpan o t (pending.map (PendingSite.edit o)) depth g.1 g.2) used ∧
          used.Perm (sitesIn pending g.1 g.2) := by
      intro g
      by_cases hg : g ∈ TemplateItem.holes (x.items t)
      · obtain ⟨used, hused⟩ := hrender g.1 g.2 (hfew g hg)
        exact ⟨used, fun _ => hused⟩
      · exact ⟨[], fun hg' => absurd hg' hg⟩
    choose used hused using hholes
    refine ⟨x :: (TemplateItem.holes (x.items t)).flatMap used,
      .template hreplacement (fun g hg => (hused g hg).1) (h.written x hx s hreplacement _), ?_⟩
    exact ((List.Perm.flatMap_left _ fun g hg => (hused g hg).2).cons x).trans hperm

/-- **What a span is rendered as**, to a depth that its sites do not exceed.

**Proof sketch.** Induction on the depth, and for each depth along the span. A site in the span is built from
renderings to a smaller depth; what stands behind it has fewer sites. -/
theorem exists_renders (depth lo hi : Nat) (hcount : (sitesIn pending lo hi).length ≤ depth) :
    ∃ used, Renders o t pending lo hi (renderSpan o t (pending.map (PendingSite.edit o)) depth lo hi) used ∧
      used.Perm (sitesIn pending lo hi) := by
  induction depth generalizing lo hi with
  | zero =>
    have hempty := length_eq_zero_iff.mp (Nat.le_zero.mp hcount)
    exact ⟨[], .plain hempty, hempty ▸ List.Perm.refl _⟩
  | succ depth ih =>
    rw [renderSpan, h.outermost_eq]
    induction lo, hi using h.span_induction with
    | hnil lo hi hempty =>
      rw [hempty]
      exact ⟨[], .plain hempty, List.Perm.refl _⟩
    | hlead lo hi x hx hrest =>
      have hlength := hx.perm.length_eq
      rw [length_append] at hlength
      obtain ⟨used, hbuilds, hused⟩ := h.exists_builds ih (mem_sitesIn.mp hx.mem).1 (by omega)
      obtain ⟨used', hrenders, hused'⟩ := hrest (by omega)
      rw [hx.dropNested_eq]
      exact ⟨used ++ used', .site hx.mem hx.others hbuilds hrenders, (hused.append hused').trans hx.perm⟩

/-- **Every site is used for one of the outermost edits**, and once. -/
theorem exists_used {length : Nat} (hlength : ∀ x ∈ pending, x.stop ≤ length) :
    ∃ used : List (List PendingSite),
      List.Forall₂ (fun e uses => ∃ x ∈ pending, e = x.edit o ∧ Builds o t pending x
          (e.text o t (pending.map (PendingSite.edit o))) uses)
        (outermost (pending.map (PendingSite.edit o))) used ∧
      used.flatten.Perm pending := by
  have hspan : ∀ lo hi, ∃ used : List (List PendingSite),
      List.Forall₂ (fun e uses => ∃ x ∈ pending, e = x.edit o ∧ Builds o t pending x
          (e.text o t (pending.map (PendingSite.edit o))) uses)
        (dropNested none ((sitesIn pending lo hi).map (PendingSite.edit o))) used ∧
      used.flatten.Perm (sitesIn pending lo hi) := by
    intro lo hi
    induction lo, hi using h.span_induction with
    | hnil lo hi hempty =>
      rw [hempty]
      exact ⟨[], .nil, List.Perm.refl _⟩
    | hlead lo hi x hx hrest =>
      obtain ⟨used, hall, hperm⟩ := hrest
      have hmem := (mem_sitesIn.mp hx.mem).1
      have hcount : (sitesIn pending x.start x.stop).length ≤ pending.length + 1 :=
        Nat.le_succ_of_le filter_sublist.length_le
      obtain ⟨uses, hbuilds, huses⟩ := h.exists_builds (h.exists_renders pending.length) hmem hcount
      rw [hx.dropNested_eq]
      refine ⟨uses :: used, .cons ⟨x, hmem, rfl, ?_⟩ hall, ?_⟩
      · rw [PendingEdit.text, length_map]
        exact hbuilds
      · exact (huses.append hperm).trans hx.perm
  have hwhole : sitesIn pending 0 length = pending :=
    filter_eq_self.mpr fun x hx => PendingSite.within_iff.mpr ⟨Nat.zero_le _, hlength x hx⟩
  have hincreasing : (pending.map (PendingSite.edit o)).Pairwise fun a b => a.start < b.start :=
    pairwise_map.mpr h.increasing
  obtain ⟨used, hall, hperm⟩ := hspan 0 length
  rw [hwhole] at hall hperm
  exact ⟨used, outermost_of_increasing hincreasing ▸ hall, hperm⟩

end Nests

end Phrasebook
