import LiveMarkup.Proofs.Store.Steps
import LiveMarkup.Proofs.Document.Within

namespace LiveMarkup

open Document

namespace Instance

def rootsOf (i : Instance) (names : List String) : List NodeId :=
  names.flatMap fun n => (i.children n).map root

variable {i : Instance} {names names' : List String} {x : NodeId}

theorem mem_rootsOf : x ∈ i.rootsOf names ↔ ∃ n ∈ names, ∃ c ∈ i.children n, c.root = x := by
  simp only [rootsOf, List.mem_flatMap, List.mem_map]

theorem rootsOf_singleton (i : Instance) (n : String) :
    i.rootsOf [n] = (i.children n).map root := List.flatMap_singleton _ _

theorem filter_rootsOf_nil (i : Instance) (xs : List NodeId) :
    xs.filter (· ∉ i.rootsOf []) = xs := by
  simp [rootsOf]

theorem rootsOf_append (i : Instance) (names names' : List String) :
    i.rootsOf (names ++ names') = i.rootsOf names ++ i.rootsOf names' := List.flatMap_append

end Instance

namespace Document

/-- The subtree at `r` is the same in both documents. -/
def Retains (d d' : Document) (r : NodeId) : Prop := ∃ (c : Shape) (p p' : Option NodeId),
  c.id = r ∧ c.ids.Nodup ∧ d.Holds p c ∧ d'.Holds p' c ∧ ∀ x ∈ c.ids, d'.label? x = d.label? x

variable {d d' d'' : Document} {r : NodeId}

theorem Retains.trans (h : d.Retains d' r) (h' : d'.Retains d'' r) : d.Retains d'' r := by
  obtain ⟨c, p, p', hid, hn, hc, hc', hlabels⟩ := h
  obtain ⟨k, q, q', hid', -, hk, hk', hlabels'⟩ := h'
  obtain rfl := hc'.unique hk (hid.trans hid'.symm)
  exact ⟨c, p, q', hid, hn, hc, hk', fun x hx => (hlabels' x hx).trans (hlabels x hx)⟩

theorem Holds.retains {parent : Option NodeId} {c : Shape} (h : d.Holds parent c) (hn : c.ids.Nodup)
    (same : ∀ x ∈ c.ids, d'.node? x = d.node? x) : d.Retains d' c.id :=
  ⟨c, parent, parent, rfl, hn, h, h.frame same, fun x hx => by rw [label?, label?, same x hx]⟩

end Document

namespace Owned

variable {d₀ d d' : Document} {s t : Shape} {ss ts : List Shape} {i g c : Instance}
  {is batch : List Instance} {p : List (String × Nat)} {name : String} {a x : NodeId}

theorem retains (h : Owned d₀ d (s :: ss) (i :: is)) (hg : i.descend? p = some g)
    (hc : c ∈ g.generated) (same : ∀ x, d.Under x c.root → d'.node? x = d.node? x) :
    d.Retains d' c.root := by
  obtain ⟨hne, hmem⟩ := h.part_of_generated hg hc
  obtain ⟨q, k, hid, hk, -, -, -, -, hn⟩ :=
    h.grown.head_holds.exists_subshape h.grown.head_nodup hmem hne
  rw [← hid] at same ⊢
  exact hk.retains hn fun x hx => same x (hk.mem_ids_iff.mp hx)

theorem anchor_unique (h : Owned d₀ d (s :: ss) (i :: is)) (hg : i.descend? p = some g)
    {view : Blueprint} {cs : List Instance}
    (hget : g.accessors.get? name = some (.iterating a view cs)) (hc : c ∈ cs)
    (hx : d.Under x i.root) : c.root ∈ d.children x ↔ x = a := by
  have hlink := (((h.embedded i List.mem_cons_self).descend? hg).1.placed_of_get? hget).2 c hc
  constructor
  · intro hmem
    obtain ⟨-, n, hn, hparent⟩ := h.grown.head_holds.children_subset (h.mem_ids_iff.mpr hx) hmem
    have hsome := hlink.1
    rw [parent?_of_node? hn, hparent] at hsome
    exact Option.some.inj hsome
  · rintro rfl
    exact hlink.2

section Renewal

variable (h : Owned d₀ d (s :: (ts ++ ss)) (i :: (batch ++ is)))
  (hts : ts.map Shape.id = batch.map Instance.root) (hg : i.descend? p = some g)
  (ha : d.Own g.stops a g.root)
include h hts hg ha

theorem node?_renewed (name : String) (x : NodeId) :
    (d.renewed (g.children name) batch a).node? x =
      ((Instance.removeRoots d (g.children name)).node? x).map fun n =>
        { label := n.label
          parent := if x ∈ batch.map Instance.root then some a else n.parent
          children := if x = a then n.children ++ batch.map Instance.root else n.children } := by
  rw [Document.renewed, Instance.appendRoots_eq hts,
    (h.grown_removeRoots hg name).1.node?_attachAll (h.mem_ids_without hg name ha), hts]

/-- The children of a node that is below none of the former ones are those that it had without these,
and behind them the new ones if it is the anchor. -/
theorem children_renewed_of_under (name : String) (hx : d.Under x i.root)
    (hstay : ∀ z ∈ g.children name, ¬ d.Under x z.root) :
    (d.renewed (g.children name) batch a).children x =
      (d.children x).filter (· ∉ g.rootsOf [name]) ++
        if x = a then batch.map Instance.root else [] := by
  have hcut := h.node?_removeRoots hg name hx hstay
  simp only [List.contains_eq_mem, ← decide_not] at hcut
  obtain ⟨n, hn⟩ := h.grown.head_holds.live x (h.mem_ids_iff.mpr hx)
  rw [Document.children, Document.children, h.node?_renewed hts hg ha, hcut, hn,
    Instance.rootsOf_singleton]
  simp only [Option.map_some, Option.getD_some]
  by_cases hxa : x = a
  · rw [if_pos hxa, if_pos hxa]
  · rw [if_neg hxa, if_neg hxa, List.append_nil]

theorem children_renewed (name : String) (hx : d.Own g.stops x g.root) :
    (d.renewed (g.children name) batch a).children x =
      (d.children x).filter (· ∉ g.rootsOf [name]) ++
        if x = a then batch.map Instance.root else [] := by
  obtain ⟨hgs, hgi⟩ := (h.embedded i List.mem_cons_self).descend? hg
  exact h.children_renewed_of_under hts hg ha name (hx.under.trans hgi) fun z hz =>
    hgs.own_not_under (h.rooted hgi) hx (Instance.mem_generated_of_mem_children hz)

theorem label?_renewed (name : String) (hx : d.Under x i.root)
    (hstay : ∀ z ∈ g.children name, ¬ d.Under x z.root) :
    (d.renewed (g.children name) batch a).label? x = d.label? x := by
  rw [label?, label?, h.node?_renewed hts hg ha, h.node?_removeRoots hg name hx hstay]
  cases d.node? x <;> rfl

/-- All that was below the former ones is gone. -/
theorem node?_renewed_of_under {z : Instance} (hz : z ∈ g.children name) (hx : d.Under x z.root) :
    (d.renewed (g.children name) batch a).node? x = none := by
  obtain ⟨hgs, hgi⟩ := (h.embedded i List.mem_cons_self).descend? hg
  obtain ⟨hcut, hstay⟩ := h.grown_removeRoots hg name
  have hxi := (hx.trans (hgs.under_root (Instance.mem_generated_of_mem_children hz))).trans hgi
  have hxs := h.mem_ids_iff.mpr hxi
  rw [h.node?_renewed hts hg ha, hcut.frame, h.grown.fresh]
  · rfl
  · exact List.mem_flatMap.mpr ⟨s, List.mem_cons_self, hxs⟩
  · rw [List.flatMap_cons, List.mem_append, not_or]
    exact ⟨fun hmem => (hstay x hxi).mp hmem z hz hx, h.grown.head_disjoint x hxs⟩

theorem retains_renewed {other : String} (hne : other ≠ name) (hc : c ∈ g.children other) :
    d.Retains (d.renewed (g.children name) batch a) c.root := by
  obtain ⟨hgs, hgi⟩ := (h.embedded i List.mem_cons_self).descend? hg
  have hcg := Instance.mem_generated_of_mem_children hc
  refine h.retains hg hcg fun x hx => ?_
  have hxi := (hx.trans (hgs.under_root hcg)).trans hgi
  have hapart : ∀ z ∈ g.children name, ¬ d.Under x z.root := fun z hz =>
    hgs.apart (h.rooted hgi) hcg (Instance.mem_generated_of_mem_children hz)
      (hgs.root_ne_of_ne hne hc hz) hx
  have hxa : x ≠ a := by
    rintro rfl
    exact hgs.own_not_under (h.rooted hgi) ha hcg hx
  have hxb : x ∉ batch.map Instance.root := by
    rw [← hts]
    intro hmem
    obtain ⟨t, ht, rfl⟩ := List.mem_map.mp hmem
    exact h.grown.head_disjoint _ (h.mem_ids_iff.mpr hxi)
      (List.mem_flatMap.mpr ⟨t, List.mem_append_left _ ht, t.id_mem_ids⟩)
  rw [h.node?_renewed hts hg ha, h.node?_removeRoots hg name hxi hapart, Option.map_map]
  cases hn : d.node? x with
  | none => rfl
  | some n =>
    have hkept : n.children.filter (fun k => !((g.children name).map Instance.root).contains k) =
        n.children := by
      refine List.filter_eq_self.mpr fun k hk => ?_
      rw [Bool.not_eq_true', ← Bool.not_eq_true, List.contains_iff_mem]
      intro hmem
      obtain ⟨z, hz, rfl⟩ := List.mem_map.mp hmem
      obtain ⟨b, view, cs, hget, hcs⟩ := Instance.exists_get?_of_mem_children hz
      rw [← children_of_node? hn] at hk
      obtain rfl := (h.anchor_unique hg hget (hcs ▸ hz) hxi).mp hk
      exact hgs.own_not_under (h.rooted hgi) (hgs.own_of_get? hget _ List.mem_cons_self) hcg hx
    simp only [Option.map_some, Function.comp_apply, if_neg hxa, if_neg hxb, hkept]

theorem retains_batch (name : String) (hc : c ∈ batch) :
    d.Retains (d.renewed (g.children name) batch a) c.root := by
  obtain ⟨hgrown, -, hlabels⟩ := h.grown_renewed name hts hg ha
  obtain ⟨t, ht, hid⟩ := List.mem_map.mp (hts ▸ List.mem_map_of_mem hc)
  have hmem : t ∈ s :: (ts ++ ss) := List.mem_cons_of_mem _ (List.mem_append_left _ ht)
  refine ⟨t, none, some a, hid, (List.nodup_flatMap.mp h.grown.nodup).1 t hmem, h.grown.holds t hmem,
    hgrown.head_holds.of_extendAt (h.mem_ids_without hg name ha) ht,
    fun x hx => hlabels x (.inr fun hxs => ?_)⟩
  exact h.grown.head_disjoint x hxs (List.mem_flatMap.mpr ⟨t, List.mem_append_left _ ht, hx⟩)

end Renewal

end Owned

/-- The instances that `g` kept for properties are gone from its own nodes. What it has for these
properties now keeps none yet, and is anchored at fresh nodes. -/
structure Cleared (names : List String) (fresh : List NodeId) (d : Document) (g : Instance)
    (d' : Document) (g' : Instance) : Prop where
  root : g'.root = g.root
  own : ∀ x, d.Own g.stops x g.root → d'.Own g'.stops x g'.root
  children : ∀ x, d.Own g.stops x g.root →
    d'.children x = (d.children x).filter (· ∉ g.rootsOf names)
  others : ∀ n ∉ names, g'.accessors.get? n = g.accessors.get? n
  bare : ∀ n ∈ names, g'.children n = [] ∧
    ∀ b view cs, g'.accessors.get? n = some (.iterating b view cs) → b ∈ fresh

namespace Cleared

variable {d d' d'' : Document} {g g' g'' : Instance} {names names' : List String}
  {fresh : List NodeId}

theorem refl (fresh : List NodeId) (d : Document) (g : Instance) : Cleared [] fresh d g d g where
  root := rfl
  own _ hx := hx
  children x _ := (g.filter_rootsOf_nil _).symm
  others _ _ := rfl
  bare _ hn := by cases hn

theorem trans (h : Cleared names fresh d g d' g') (h' : Cleared names' fresh d' g' d'' g'') :
    Cleared (names ++ names') fresh d g d'' g'' where
  root := h'.root.trans h.root
  own x hx := h'.own x (h.own x hx)
  children x hx := by
    rw [h'.children x (h.own x hx), h.children x hx, List.filter_filter]
    refine List.filter_congr fun k _ => ?_
    rw [← Bool.decide_and, decide_eq_decide, Instance.mem_rootsOf, Instance.mem_rootsOf,
      Instance.mem_rootsOf]
    constructor
    · rintro ⟨hk', hk⟩ ⟨n, hn, c, hc, e⟩
      by_cases hmem : n ∈ names
      · exact hk ⟨n, hmem, c, hc, e⟩
      · refine hk' ⟨n, (List.mem_append.mp hn).resolve_left hmem, c, ?_, e⟩
        rwa [Instance.children_eq, h.others n hmem, ← Instance.children_eq]
    · intro hk
      refine ⟨fun ⟨n, hn, c, hc, e⟩ => ?_, fun ⟨n, hn, c, hc, e⟩ =>
        hk ⟨n, List.mem_append_left _ hn, c, hc, e⟩⟩
      by_cases hmem : n ∈ names
      · rw [(h.bare n hmem).1] at hc
        cases hc
      · refine hk ⟨n, List.mem_append_right _ hn, c, ?_, e⟩
        rwa [Instance.children_eq, h.others n hmem, ← Instance.children_eq] at hc
  others n hn := by
    rw [List.mem_append, not_or] at hn
    rw [h'.others n hn.2, h.others n hn.1]
  bare n hn := by
    by_cases hmem : n ∈ names'
    · exact h'.bare n hmem
    · rw [Instance.children_eq, h'.others n hmem, ← Instance.children_eq]
      exact h.bare n ((List.mem_append.mp hn).resolve_right hmem)

end Cleared

theorem Owned.cleared {d₀ d : Document} {s : Shape} {ss : List Shape} {i g : Instance}
    {is : List Instance} {p : List (String × Nat)} {ac : Accessor Instance} {fresh : List NodeId}
    (h : Owned d₀ d (s :: ss) (i :: is)) (hg : i.descend? p = some g) (name : String)
    (childless : ac.children = [])
    (anchor : ∀ b view cs, ac = .iterating b view cs → b ∈ fresh) :
    Cleared [name] fresh d g (Instance.removeRoots d (g.children name)) (g.withAccessor name ac) := by
  have hget : (g.withAccessor name ac).accessors.get? name = some ac := Table.get?_put_self _ _ _
  have hbatch : Owned d₀ d (s :: ([] ++ ss)) (i :: ([] ++ is)) := h
  refine ⟨rfl, fun x hx => hbatch.own_renewed name rfl hg .refl childless hx, fun x hx => ?_,
    fun n hn => Table.get?_put_of_ne _ _ (by simpa using hn), fun n hn => ?_⟩
  · refine (hbatch.children_renewed rfl hg .refl name hx).trans ?_
    rw [List.map_nil, ite_self, List.append_nil]
  · obtain rfl := List.mem_singleton.mp hn
    refine ⟨by rw [Instance.children_of_get? hget, childless], fun b view cs hb => ?_⟩
    rw [hget] at hb
    exact anchor b view cs (Option.some.inj hb)

/-- The instance `g` has got a copy as the last child of its root, and what it kept for properties is
gone from its own nodes. What it has for these now is anchored in the copy. -/
structure Extended (names : List String) (c : Shape) (d : Document) (g : Instance) (d' : Document)
    (g' : Instance) : Prop where
  root : g'.root = g.root
  fresh : ∀ x, d.Own g.stops x g.root → x ∉ c.ids
  own : ∀ x, d.Own g.stops x g.root → d'.Own g'.stops x g'.root
  children : ∀ x, d.Own g.stops x g.root → d'.children x =
    (d.children x).filter (· ∉ g.rootsOf names) ++ if x = g.root then [c.id] else []
  anchored : ∀ n ∈ names, ∀ b view cs, g'.accessors.get? n = some (.iterating b view cs) → b ∈ c.ids

theorem Owned.extended {d₀ d d₁ d' : Document} {s c : Shape} {ss : List Shape} {i g g' : Instance}
    {is : List Instance} {p : List (String × Nat)} {t : Tree} {names : List String}
    (h : Owned d₀ d (s :: ss) (i :: is)) (hg : i.descend? p = some g) (hc : d.Copies d₁ c t)
    (cleared : Cleared names c.ids (d₁.append g.root c.id) g d' g') : Extended names c d g d' g' := by
  have hfresh : ∀ x ∈ s.ids, x ∉ c.ids := fun x hx hmem => by
    obtain ⟨n, hn⟩ := h.grown.head_holds.live x hx
    rw [hc.fresh x hmem] at hn
    cases hn
  have hown := (h.own_attach hg hc).1
  have hkept : c.id ∉ g.rootsOf names := fun hmem => by
    obtain ⟨n, -, z, hz, e⟩ := Instance.mem_rootsOf.mp hmem
    have hpart := (h.part_of_generated hg (Instance.mem_generated_of_mem_children hz)).2
    exact hfresh _ hpart (e ▸ c.id_mem_ids)
  refine ⟨cleared.root, fun x hx => hfresh x (h.mem_ids_of_own hg hx),
    fun x hx => cleared.own x (hown x hx), fun x hx => ?_, fun n hn => (cleared.bare n hn).2⟩
  obtain ⟨n, hn⟩ := h.grown.head_holds.live x (h.mem_ids_of_own hg hx)
  have hsame : d₁.children x = d.children x := by
    rw [Document.children, Document.children, hc.grown.keeps hn]
  rw [cleared.children x (hown x hx), h.children_attach hg hc, hsame, List.filter_append]
  by_cases hroot : x = g.root
  · rw [if_pos hroot, List.filter_singleton, decide_eq_true hkept]
    rfl
  · rw [if_neg hroot, List.filter_nil]

end LiveMarkup
