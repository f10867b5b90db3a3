import LiveMarkup.Proofs.Store.Steps

namespace LiveMarkup

open Document

namespace Shape

variable {f f' : NodeId → NodeId} {s : Shape}

theorem ids_rename (f : NodeId → NodeId) (s : Shape) : (s.rename f).ids = s.ids.map f := by
  induction s with
  | node id cs ih =>
    rw [rename_node, ids_node, ids_node, List.map_cons, List.flatMap_map, List.map_flatMap]
    congr 1
    exact List.flatMap_congr ih

theorem flatMap_ids_rename (f : NodeId → NodeId) (ss : List Shape) :
    (ss.map (rename f)).flatMap ids = (ss.flatMap ids).map f := by
  rw [List.flatMap_map, List.map_flatMap]
  exact List.flatMap_congr fun s _ => ids_rename f s

theorem rename_congr (h : ∀ x ∈ s.ids, f' x = f x) : s.rename f' = s.rename f := by
  induction s with
  | node id cs ih =>
    rw [rename_node, rename_node, h id (id_mem_ids _)]
    congr 1
    exact List.map_congr_left fun c hc => ih c hc fun x hx => h x (ids_subset_of_mem hc hx)

theorem map_rename_congr {ss : List Shape} (h : ∀ x ∈ ss.flatMap ids, f' x = f x) :
    ss.map (rename f') = ss.map (rename f) :=
  List.map_congr_left fun s hs => rename_congr fun x hx => h x (List.mem_flatMap.mpr ⟨s, hs, hx⟩)

theorem rename_without {p q : NodeId → Bool} (h : ∀ x ∈ s.ids, q (f x) = p x) :
    (s.rename f).without q = (s.without p).rename f := by
  induction s with
  | node id cs ih =>
    rw [rename_node, without_node, without_node, rename_node, List.filter_map, List.map_map,
      List.map_map]
    have hfilter : (cs.filter ((fun c => !q c.id) ∘ rename f)) = cs.filter fun c => !p c.id :=
      List.filter_congr fun c hc => by
        rw [Function.comp_apply, id_rename, h _ (ids_subset_of_mem hc c.id_mem_ids)]
    rw [hfilter]
    congr 1
    exact List.map_congr_left fun c hc => ih c (List.mem_of_mem_filter hc) fun x hx =>
      h x (ids_subset_of_mem (List.mem_of_mem_filter hc) hx)

theorem rename_extendBy {more more' : NodeId → List Shape}
    (h : ∀ x ∈ s.ids, more' (f x) = (more x).map (rename f)) :
    (s.rename f).extendBy more' = (s.extendBy more).rename f := by
  induction s with
  | node id cs ih =>
    rw [rename_node, extendBy_node, extendBy_node, rename_node, List.map_append, List.map_map,
      List.map_map, h id (id_mem_ids _)]
    congr 2
    exact List.map_congr_left fun c hc => ih c hc fun x hx => h x (ids_subset_of_mem hc hx)

theorem rename_extendAt {a : NodeId} (ts : List Shape) (h : ∀ x ∈ s.ids, f x = f a → x = a) :
    (s.rename f).extendAt (f a) (ts.map (rename f)) = (s.extendAt a ts).rename f := by
  refine rename_extendBy fun x hx => ?_
  by_cases hxa : x = a
  · rw [if_pos hxa, if_pos (congrArg f hxa)]
  · rw [if_neg hxa, if_neg fun e => hxa (h x hx e), List.map_nil]

theorem rename_renewed {former : List Instance} {ts : List Shape} {a : NodeId}
    (hinj : ∀ x ∈ s.ids, ∀ y ∈ s.ids, f x = f y → x = y) (ha : a ∈ s.ids)
    (hformer : ∀ z ∈ former, z.root ∈ s.ids) :
    (s.rename f).renewed (former.map (Instance.rename f)) (ts.map (rename f)) (f a) =
      (s.renewed former ts a).rename f := by
  have hroots : (former.map (Instance.rename f)).map Instance.root =
      (former.map Instance.root).map f := by
    rw [List.map_map, List.map_map]
    exact List.map_congr_left fun z _ => Instance.root_rename f z
  have hpick : ∀ x ∈ s.ids, ((former.map Instance.root).map f).contains (f x) =
      (former.map Instance.root).contains x := by
    intro x hx
    rw [Bool.eq_iff_iff, List.contains_iff_mem, List.contains_iff_mem]
    constructor
    · intro hmem
      obtain ⟨y, hy, e⟩ := List.mem_map.mp hmem
      obtain ⟨z, hz, rfl⟩ := List.mem_map.mp hy
      exact hinj _ (hformer z hz) _ hx e ▸ hy
    · exact fun hmem => List.mem_map_of_mem hmem
  rw [renewed, renewed, hroots, rename_without hpick]
  exact rename_extendAt ts fun x hx e => hinj x ((ids_without_sublist _ s).subset hx) a ha e

end Shape

theorem Document.treeAt_rename {d e : Document} {f : NodeId → NodeId} {s : Shape}
    (h : ∀ x ∈ s.ids, e.label? (f x) = d.label? x) : e.treeAt (s.rename f) = d.treeAt s := by
  induction s with
  | node id cs ih =>
    rw [Shape.rename_node, treeAt_node, treeAt_node, labelAt, labelAt, h id (Shape.id_mem_ids _),
      List.map_map]
    congr 1
    exact List.map_congr_left fun c hc => ih c hc fun x hx => h x (Shape.ids_subset_of_mem hc hx)

theorem Document.label?_eq_of_grown {d d' e e' : Document} {ss ts : List Shape} {x y : NodeId}
    (hd : Grown d d' ss) (he : Grown e e' ts) (hlive : ∃ n, d.node? x = some n)
    (hlabel : e.label? y = d.label? x) : e'.label? y = d'.label? x := by
  obtain ⟨n, hn⟩ := hlive
  have hkept : d'.label? x = d.label? x := by rw [label?, label?, hd.keeps hn]
  obtain ⟨m, hm⟩ : ∃ m, e.node? y = some m := by
    rw [label?_of_node? hn, label?, Option.map_eq_some_iff] at hlabel
    obtain ⟨m, hm, -⟩ := hlabel
    exact ⟨m, hm⟩
  rw [hkept, ← hlabel, label?, label?, he.keeps hm]

theorem Owned.mirrors_attach {d₀ d d' : Document} {s c : Shape} {ss : List Shape} {i g : Instance}
    {is : List Instance} {p : List (String × Nat)} {t : Tree} (h : Owned d₀ d (s :: ss) (i :: is))
    (hg : i.descend? p = some g) (hc : d.Copies d' c t) :
    Mirrors d' (d'.append g.root c.id) id c.ids := by
  obtain ⟨hgs, hgi⟩ := (h.embedded i List.mem_cons_self).descend? hg
  have hroot : g.root ∉ c.ids := fun hmem => by
    obtain ⟨n, hn⟩ := h.grown.head_holds.live _ (h.mem_ids_iff.mpr hgi)
    rw [hc.fresh _ hmem] at hn
    cases hn
  refine ⟨fun x _ => (h.attach hg hc).2 x, fun x hx => ?_, fun x hx y hy => ?_⟩
  · have hne : x ≠ g.root := fun e => hroot (e ▸ hx)
    rw [id, h.children_attach hg hc, if_neg hne, List.append_nil, List.map_id]
  · exact (hc.holds.children_subset hx hy).1

/-- The instances own trees in `d` and, with their handles renamed, in `e`, with the same labels. -/
structure Renamed (d₀ e₀ : Document) (f : NodeId → NodeId) (ss : List Shape) (d e : Document)
    (is : List Instance) : Prop where
  left : Owned d₀ d ss is
  right : Owned e₀ e (ss.map (Shape.rename f)) (is.map (Instance.rename f))
  labels : ∀ x ∈ ss.flatMap Shape.ids, e.label? (f x) = d.label? x

theorem exists_merge (f h : NodeId → NodeId) (xs ys : List NodeId) (hdisj : ∀ x ∈ ys, x ∉ xs) :
    ∃ k : NodeId → NodeId, (∀ x ∈ xs, k x = f x) ∧ ∀ x ∈ ys, k x = h x :=
  ⟨fun x => if x ∈ xs then f x else h x, fun _ hx => if_pos hx, fun x hx => if_neg (hdisj x hx)⟩

namespace Renamed

variable {d₀ e₀ d e d' e' : Document} {f f' h : NodeId → NodeId} {s : Shape} {ss ss' ts : List Shape}
  {i g g' : Instance} {is is' batch : List Instance} {p : List (String × Nat)} {name : String}
  {a : NodeId}

theorem nil (f : NodeId → NodeId) (hd : d.Tidy) (he : e.Tidy) : Renamed d e f [] d e [] :=
  ⟨.nil hd, .nil he, by simp⟩

theorem injOn (t : Renamed d₀ e₀ f ss d e is) :
    ∀ x ∈ ss.flatMap Shape.ids, ∀ y ∈ ss.flatMap Shape.ids, f x = f y → x = y := by
  have hn := t.right.grown.nodup
  rw [Shape.flatMap_ids_rename] at hn
  exact fun x hx y hy => List.inj_on_of_nodup_map hn hx hy

theorem mem_ids (t : Renamed d₀ e₀ f ss d e is) (hi : i ∈ is) {x : NodeId} (hx : d.Under x i.root) :
    x ∈ ss.flatMap Shape.ids := by
  obtain ⟨s, hs, hid⟩ := t.left.exists_shape hi
  refine List.mem_flatMap.mpr ⟨s, hs, ?_⟩
  rw [(t.left.grown.holds s hs).mem_ids_iff, hid]
  exact hx

theorem mirrors (t : Renamed d₀ e₀ f ss d e is) (hs : s ∈ ss) : Mirrors d e f s.ids := by
  have hlabels : ∀ x ∈ s.ids, e.label? (f x) = d.label? x := fun x hx =>
    t.labels x (List.mem_flatMap.mpr ⟨s, hs, hx⟩)
  exact (t.left.grown.holds s hs).mirrors (t.right.grown.holds _ (List.mem_map_of_mem hs))
    (treeAt_rename hlabels)

theorem decode? (t : Renamed d₀ e₀ f ss d e is) {x : NodeId} (hx : x ∈ ss.flatMap Shape.ids)
    (path : Path) : e.decode? (f x) path = (d.decode? x path).map (Place.rename f) := by
  obtain ⟨s, hs, hx⟩ := List.mem_flatMap.mp hx
  have hlive : d.contains x = true :=
    contains_iff.mpr ((t.left.grown.holds s hs).live x hx)
  have hlive' : e.contains (f x) = true := by
    refine contains_iff.mpr ((t.right.grown.holds _ (List.mem_map_of_mem hs)).live _ ?_)
    rw [Shape.ids_rename]
    exact List.mem_map_of_mem hx
  rw [Document.decode?, Document.decode?, if_pos hlive, if_pos hlive']
  exact (t.mirrors hs).follow? hx _

theorem link (t : Renamed d₀ e₀ f ss d e is) {c x : NodeId} (hx : x ∈ ss.flatMap Shape.ids)
    (hlink : d.Link c x) : e.Link (f c) (f x) := by
  obtain ⟨s, hs, hx⟩ := List.mem_flatMap.mp hx
  have hchildren := (t.mirrors hs).children x hx
  have hmem : f c ∈ e.children (f x) := by
    rw [hchildren]
    exact List.mem_map_of_mem hlink.2
  have hx' : f x ∈ (s.rename f).ids := by
    rw [Shape.ids_rename]
    exact List.mem_map_of_mem hx
  obtain ⟨-, n, hn, hparent⟩ :=
    (t.right.grown.holds _ (List.mem_map_of_mem hs)).children_subset hx' hmem
  exact ⟨by rw [parent?_of_node? hn, hparent], hmem⟩

theorem own (t : Renamed d₀ e₀ f ss d e is) (hi : i ∈ is) (hg : i.descend? p = some g) {x : NodeId}
    (hx : d.Own g.stops x g.root) : e.Own (g.rename f).stops (f x) (f g.root) := by
  obtain ⟨hgs, hgi⟩ := (t.left.embedded i hi).descend? hg
  have hstops : (g.rename f).stops = g.stops.map f := by
    rw [Instance.stops, Instance.stops, Instance.generated_rename, List.map_map, List.map_map]
    exact List.map_congr_left fun c _ => Instance.root_rename f c
  induction hx using Relation.ReflTransGen.head_induction_on with
  | refl => exact .refl
  | @head c q hlink hup ih =>
    have hq := t.mem_ids hi ((Own.under hup).trans hgi)
    have hc := t.mem_ids hi (.head hlink.1 ((Own.under hup).trans hgi))
    refine .head ⟨t.link hq hlink.1, fun hmem => hlink.2 ?_⟩ ih
    rw [hstops] at hmem
    obtain ⟨z, hz, e⟩ := List.mem_map.mp hmem
    obtain ⟨k, hk, rfl⟩ := List.mem_map.mp hz
    rw [← t.injOn _ (t.mem_ids hi ((hgs.under_root hk).trans hgi)) _ hc e]
    exact hz

/-- Only how the nodes of the trees are renamed matters. -/
theorem congr (t : Renamed d₀ e₀ f ss d e is) (same : ∀ x ∈ ss.flatMap Shape.ids, f' x = f x) :
    Renamed d₀ e₀ f' ss d e is ∧ is.map (Instance.rename f') = is.map (Instance.rename f) := by
  have hinstances : is.map (Instance.rename f') = is.map (Instance.rename f) :=
    List.map_congr_left fun i hi => (t.left.embedded i hi).rename_congr fun x hx => same x (t.mem_ids hi hx)
  refine ⟨⟨t.left, ?_, fun x hx => ?_⟩, hinstances⟩
  · rw [Shape.map_rename_congr same, hinstances]
    exact t.right
  · rw [same x hx, t.labels x hx]

theorem rename_congr (t : Renamed d₀ e₀ f [s] d e [i]) (hg : i.descend? p = some g)
    (same : ∀ x ∈ s.ids, f' x = f x) : g.rename f' = g.rename f := by
  obtain ⟨hgs, hgi⟩ := (t.left.embedded i List.mem_cons_self).descend? hg
  exact hgs.rename_congr fun x hx => same x (t.left.mem_ids_iff.mpr (hx.trans hgi))

theorem append (t : Renamed d₀ e₀ f ss d e is) (t' : Renamed d e h ss' d' e' is') :
    ∃ k, (∀ x ∈ ss.flatMap Shape.ids, k x = f x) ∧ (∀ x ∈ ss'.flatMap Shape.ids, k x = h x) ∧
      Renamed d₀ e₀ k (ss ++ ss') d' e' (is ++ is') := by
  have hlive : ∀ x ∈ ss.flatMap Shape.ids, ∃ n, d.node? x = some n := by
    intro x hx
    obtain ⟨s, hs, hx⟩ := List.mem_flatMap.mp hx
    exact (t.left.grown.holds s hs).live x hx
  obtain ⟨k, hk, hk'⟩ := exists_merge f h (ss.flatMap Shape.ids)
    (ss'.flatMap Shape.ids) fun x hx hmem => by
      obtain ⟨n, hn⟩ := hlive x hmem
      exact t'.left.grown.not_mem_of_live hn hx
  obtain ⟨hfirst, -⟩ := t.congr hk
  obtain ⟨hsecond, -⟩ := t'.congr hk'
  refine ⟨k, hk, hk', t.left.append t'.left, ?_, fun x hx => ?_⟩
  · rw [List.map_append, List.map_append]
    exact hfirst.right.append hsecond.right
  · rw [List.flatMap_append, List.mem_append] at hx
    rcases hx with hx | hx
    · exact label?_eq_of_grown t'.left.grown hsecond.right.grown (hlive x hx) (hfirst.labels x hx)
    · exact hsecond.labels x hx

theorem of_copies {c c' : Shape} {t : Tree} (hc : d.Copies d' c t) (hc' : e.Copies e' c' t) :
    ∃ f, c' = c.rename f ∧ ∀ x ∈ c.ids, e'.label? (f x) = d'.label? x := by
  have htree : e'.treeAt c' = d'.treeAt c := hc'.tree.trans hc.tree.symm
  obtain ⟨f, -, hids, hmirrors⟩ := hc.holds.exists_renaming hc.nodup hc'.holds htree
  exact ⟨f, Shape.eq_rename_of_ids htree hids, hmirrors.labels⟩

theorem plant (hd : d.Tidy) (he : e.Tidy) (t : Tree) {i j : Instance} (hi : i.root = (d.graft t).2)
    (hbare : i.accessors = .empty) (hj : j = { i with root := (e.graft t).2 }) :
    ∃ f s, j = i.rename f ∧ Renamed d e f [s] (d.graft t).1 (e.graft t).1 [i] ∧
      d.Copies (d.graft t).1 s t ∧ e.Copies (e.graft t).1 (s.rename f) t := by
  obtain ⟨c, hc, hid⟩ := hd.graft t
  obtain ⟨c', hc', hid'⟩ := he.graft t
  obtain ⟨f, rfl, hlabels⟩ := of_copies hc hc'
  have hrename : j = i.rename f := by
    rw [hj, Instance.rename_eq, hbare, ← hid', Shape.id_rename, hid, hi]
    rfl
  refine ⟨f, c, hrename, ⟨⟨hc.grown, ?_, ?_⟩, ⟨?_, ?_, ?_⟩, ?_⟩, hc, hc'⟩
  · rw [List.map_singleton, List.map_singleton, hid, hi]
  · simpa using Instance.Embedded.bare _ hbare
  · rw [List.map_singleton]
    exact hc'.grown
  · rw [List.map_singleton, List.map_singleton, List.map_singleton, List.map_singleton,
      Instance.root_rename, Shape.id_rename, hid, hi]
  · have hbare' : j.accessors = .empty := by
      rw [hj]
      exact hbare
    rw [List.map_singleton, ← hrename]
    simpa using Instance.Embedded.bare _ hbare'
  · simpa using hlabels

theorem tell (t : Renamed d₀ e₀ f [s] d e [i]) (hg : i.descend? p = some g)
    (hroot : g'.root = g.root) (haccessors : g'.accessors = g.accessors) :
    Renamed d₀ e₀ f [s] d e [i.replaceAt g' p] := by
  refine ⟨t.left.tell hg hroot haccessors, ?_, t.labels⟩
  have hg' : (i.rename f).descend? p = some (g.rename f) := by
    rw [Instance.descend?_rename, hg, Option.map_some]
  have hroot' : (g'.rename f).root = (g.rename f).root := by simp [hroot]
  have hright := t.right.tell hg' hroot' (by simp [haccessors])
  rwa [← Instance.replaceAt_rename] at hright

theorem write (t : Renamed d₀ e₀ f [s] d e [i]) (hg : i.descend? p = some g)
    {ls : List BoundLocation} (hget : g.accessors.get? name = some (.bound ls))
    (values : Table Json) :
    Renamed d₀ e₀ f [s] (Instance.writeLocations d name values ls)
      (Instance.writeLocations e name values (ls.map (BoundLocation.rename f))) [i] := by
  have hg' : (i.rename f).descend? p = some (g.rename f) := by
    rw [Instance.descend?_rename, hg, Option.map_some]
  have hget' : (g.rename f).accessors.get? name =
      some (.bound (ls.map (BoundLocation.rename f))) := by
    rw [Instance.get?_rename, hget]
    rfl
  refine ⟨t.left.write hg hget values, t.right.write hg' hget' values, fun x hx => ?_⟩
  have hgs := ((t.left.embedded i List.mem_cons_self).descend? hg).1
  have howner : ∀ r ∈ ls, r.place.owner ∈ [s].flatMap Shape.ids := fun r hr => by
    simpa using t.left.mem_ids_of_own hg (hgs.own_of_get? hget _ (List.mem_map_of_mem hr))
  have hfilter : (ls.map (BoundLocation.rename f)).filter (·.place.owner = f x) =
      (ls.filter (·.place.owner = x)).map (BoundLocation.rename f) := by
    rw [List.filter_map]
    congr 1
    refine List.filter_congr fun r hr => ?_
    rw [Function.comp_apply, BoundLocation.owner_rename, decide_eq_decide]
    exact ⟨t.injOn _ (howner r hr) x hx, congrArg f⟩
  rw [Instance.label?_writeLocations, Instance.label?_writeLocations, t.labels x hx, hfilter]
  congr 1
  funext l
  exact Label.inscribeAll_rename name values f _ l

theorem attach (t : Renamed d₀ e₀ f [s] d e [i]) (hg : i.descend? p = some g) (tree : Tree) :
    ∃ k c, (∀ x ∈ s.ids, k x = f x) ∧
      Renamed d₀ e₀ k [s.extendAt g.root [c]] ((d.graft tree).1.append g.root (d.graft tree).2)
        ((e.graft tree).1.append (g.rename f).root (e.graft tree).2) [i] ∧
      c.id = (d.graft tree).2 ∧ k c.id = (e.graft tree).2 ∧
      d.Copies (d.graft tree).1 c tree ∧ e.Copies (e.graft tree).1 (c.rename k) tree := by
  obtain ⟨c, hc, hid⟩ := t.left.grown.tidy.graft tree
  obtain ⟨c', hc', hid'⟩ := t.right.grown.tidy.graft tree
  obtain ⟨h, rfl, hlabels⟩ := of_copies hc hc'
  obtain ⟨k, hk, hk'⟩ := exists_merge f h s.ids c.ids fun x hx hmem => by
    obtain ⟨n, hn⟩ := t.left.grown.head_holds.live x hmem
    rw [hc.fresh x hx] at hn
    cases hn
  have hall : ∀ x ∈ [s].flatMap Shape.ids, k x = f x := by simpa using hk
  obtain ⟨t', -⟩ := t.congr hall
  rw [← Shape.rename_congr hk'] at hc' hid'
  have hg' : (i.rename k).descend? p = some (g.rename k) := by
    rw [Instance.descend?_rename, hg, Option.map_some]
  obtain ⟨hleft, hleftLabels⟩ := t.left.attach hg hc
  obtain ⟨hright, hrightLabels⟩ := t'.right.attach hg' hc'
  have hroot : g.root ∈ s.ids :=
    t.left.mem_ids_iff.mpr ((t.left.embedded i List.mem_cons_self).descend? hg).2
  have hsame : (g.rename f).root = (g.rename k).root := by
    rw [Instance.root_rename, Instance.root_rename, hk _ hroot]
  rw [hid] at hleft hleftLabels
  rw [hid'] at hright hrightLabels
  rw [hsame]
  refine ⟨k, c, hk, ⟨hleft, ?_, fun x hx => ?_⟩, hid, ?_, hc, hc'⟩
  · rw [List.map_singleton, ← Shape.rename_extendAt _ fun x hx e => ?_]
    · rw [Instance.root_rename] at hright ⊢
      exact hright
    · exact t'.injOn x (by simpa using hx) _ (by simpa using hroot) e
  · rw [hleftLabels, hrightLabels]
    rw [List.flatMap_singleton, Shape.mem_ids_extendAt, List.flatMap_singleton] at hx
    rcases hx with hx | ⟨-, hx⟩
    · exact label?_eq_of_grown hc.grown hc'.grown (t.left.grown.head_holds.live x hx)
        (t'.labels x (by simpa using hx))
    · rw [hk' x hx]
      exact hlabels x hx
  · rw [← hid', Shape.id_rename]

theorem renew {ac : Accessor Instance}
    (t : Renamed d₀ e₀ f ([s] ++ ts) d e ([i] ++ ac.children)) (hg : i.descend? p = some g)
    (name : String) (ha : d.Own g.stops a g.root)
    (hhandles : ∀ x ∈ ac.handles, d.Own g.stops x g.root)
    (hview : ∀ anchor view cs, ac = .iterating anchor view cs → anchor = a ∧ view.IsCompiled) :
    Renamed d₀ e₀ f [s.renewed (g.children name) ts a]
      (d.renewed (g.children name) ac.children a)
      (e.renewed ((g.rename f).children name) (ac.rename f (Instance.rename f)).children (f a))
      [i.replaceAt (g.withAccessor name ac) p] := by
  have hg' : (i.rename f).descend? p = some (g.rename f) := by
    rw [Instance.descend?_rename, hg, Option.map_some]
  have hleft : Owned d₀ d (s :: (ts ++ [])) (i :: (ac.children ++ [])) := by simpa using t.left
  have hright : Owned e₀ e (s.rename f :: (ts.map (Shape.rename f) ++ []))
      (i.rename f :: ((ac.rename f (Instance.rename f)).children ++ [])) := by
    simpa [Accessor.children_rename] using t.right
  have hts : ts.map Shape.id = ac.children.map Instance.root := by
    simpa using (List.cons.inj hleft.roots).2
  have hts' : (ts.map (Shape.rename f)).map Shape.id =
      (ac.rename f (Instance.rename f)).children.map Instance.root := by
    simpa using (List.cons.inj hright.roots).2
  have hs : ∀ x ∈ s.ids, x ∈ ([s] ++ ts).flatMap Shape.ids := fun x hx => by simp [hx]
  have hown : ∀ x, d.Own g.stops x g.root →
      e.Own (g.rename f).stops (f x) (g.rename f).root := fun x hx => by
    rw [Instance.root_rename]
    exact t.own (i := i) (by simp) hg hx
  have hshape : (s.rename f).renewed ((g.rename f).children name) (ts.map (Shape.rename f)) (f a) =
      (s.renewed (g.children name) ts a).rename f := by
    rw [Instance.children_rename]
    refine Shape.rename_renewed (fun x hx y hy => t.injOn x (hs x hx) y (hs y hy))
      (hleft.mem_ids_of_own hg ha) fun z hz => ?_
    exact (hleft.part_of_generated hg (Instance.mem_generated_of_mem_children hz)).2
  have hnewLeft := hleft.renew name hts hg ha rfl hhandles hview
  have hnewRight := hright.renew name hts' hg' (hown a ha) rfl
    (fun x hx => ?_) (fun anchor view cs he => ?_)
  · obtain ⟨-, -, hlabel⟩ := hleft.grown_renewed name hts hg ha
    obtain ⟨-, -, hlabel'⟩ := hright.grown_renewed name hts' hg' (hown a ha)
    refine ⟨hnewLeft, ?_, fun x hx => ?_⟩
    · rw [hshape, ← Instance.withAccessor_rename, ← Instance.replaceAt_rename] at hnewRight
      exact hnewRight
    · rw [List.flatMap_singleton] at hx
      rw [hlabel x (.inl hx), hlabel' (f x) (.inl ?_)]
      · refine t.labels x ?_
        rw [Shape.renewed, Shape.mem_ids_extendAt] at hx
        rcases hx with hx | ⟨-, hx⟩
        · exact hs x ((Shape.ids_without_sublist _ s).subset hx)
        · simp [List.mem_flatMap.mp hx]
      · rw [hshape, Shape.ids_rename]
        exact List.mem_map_of_mem hx
  · rw [Accessor.handles_rename] at hx
    obtain ⟨y, hy, rfl⟩ := List.mem_map.mp hx
    exact hown y (hhandles y hy)
  · cases ac with
    | bound ls => cases he
    | iterating b v cs' =>
      obtain ⟨rfl, hcompiled⟩ := hview b v cs' rfl
      obtain ⟨rfl, rfl, -⟩ := Accessor.iterating.inj he
      exact ⟨rfl, hcompiled⟩

theorem discard (t : Renamed d₀ e₀ f (ts ++ ss) d e (batch ++ is))
    (hts : ts.map Shape.id = batch.map Instance.root) :
    Renamed d₀ e₀ f ss (Instance.removeRoots d batch)
      (Instance.removeRoots e (batch.map (Instance.rename f))) is := by
  have hright := t.right
  rw [List.map_append, List.map_append] at hright
  have hts' : (ts.map (Shape.rename f)).map Shape.id =
      (batch.map (Instance.rename f)).map Instance.root := by
    have hmap := congrArg (List.map f) hts
    simpa [Function.comp_def, Shape.id_rename] using hmap
  refine ⟨t.left.discard hts, hright.discard hts', fun x hx => ?_⟩
  have hnode := t.left.grown.node?_removeAll (x := x) ?_
  · have hnode' := hright.grown.node?_removeAll (x := f x) ?_
    · rw [Instance.removeRoots_eq hts, Instance.removeRoots_eq hts', label?, label?, hnode, hnode']
      exact t.labels x (by rw [List.flatMap_append]; exact List.mem_append_right _ hx)
    · have hn := hright.grown.nodup
      rw [List.flatMap_append, List.nodup_append, Shape.flatMap_ids_rename,
        Shape.flatMap_ids_rename] at hn
      rw [Shape.flatMap_ids_rename]
      exact fun hmem => hn.2.2 _ hmem _ (List.mem_map_of_mem hx) rfl
  · have hn := t.left.grown.nodup
    rw [List.flatMap_append, List.nodup_append] at hn
    exact fun hmem => hn.2.2 x hmem x hx rfl

end Renamed

end LiveMarkup
