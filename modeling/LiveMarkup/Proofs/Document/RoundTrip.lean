import LiveMarkup.Proofs.Document.Forest
import LiveMarkup.Proofs.Document.Graft
import LiveMarkup.Proofs.Document.Links
import LiveMarkup.Proofs.Document.Renaming

namespace LiveMarkup

namespace Document

/-- The document `c` has a copy of the tree of `root` below `r`: `root` itself, or what an import
into a document with any other content gave. -/
inductive IsCopy (d : Document) (root : NodeId) : Document → NodeId → Prop where
  | self : IsCopy d root d root
  | imported {e c : Document} {r : NodeId} (tidy : e.Tidy)
      (done : e.importFrom d root = (c, some r)) : IsCopy d root c r

/-- The places of two trees that have the same position in document order, and the same index among
the attributes there. -/
inductive SamePlace (d : Document) (root : NodeId) (c : Document) (r : NodeId) :
    Place → Place → Prop where
  | node {k : Nat} {x y : NodeId} (source : (d.descendants root)[k]? = some x)
      (copy : (c.descendants r)[k]? = some y) : SamePlace d root c r (.node x) (.node y)
  | «attribute» {k i : Nat} {x y : NodeId} (source : (d.descendants root)[k]? = some x)
      (copy : (c.descendants r)[k]? = some y) :
      SamePlace d root c r (.attribute x i) (.attribute y i)

theorem IsCopy.exists_holds {d c : Document} {parent : Option NodeId} {s : Shape} {r : NodeId}
    (hs : d.Holds parent s) (hn : s.ids.Nodup) (hc : IsCopy d s.id c r) :
    ∃ s' parent', s'.id = r ∧ c.Holds parent' s' ∧ s'.ids.Nodup ∧ c.treeAt s' = d.treeAt s := by
  cases hc with
  | self => exact ⟨s, parent, rfl, hs, hn, rfl⟩
  | @imported e _ _ tidy done =>
    obtain ⟨s', hcopy, hid⟩ := tidy.graft (d.treeAt s)
    rw [importFrom, hs.tree? hn] at done
    obtain ⟨rfl, hr⟩ := Prod.mk.inj done
    exact ⟨s', none, hid.trans (Option.some.inj hr), hcopy.holds, hcopy.nodup, hcopy.tree⟩

theorem Below.owner_mem {d : Document} {root : NodeId} {t : Place} (h : d.Below root t) :
    t.owner ∈ d.descendants root := by
  cases t with
  | node x => exact h
  | «attribute» x i => exact h.1

theorem samePlace_iff {d c : Document} {root r : NodeId} {f : NodeId → NodeId} {t t' : Place}
    (hids : c.descendants r = (d.descendants root).map f) (ht : t.owner ∈ d.descendants root) :
    SamePlace d root c r t t' ↔ t' = t.rename f := by
  constructor
  · intro h
    cases h with
    | node source copy | «attribute» source copy =>
      rw [hids, List.getElem?_map, source] at copy
      rw [← Option.some.inj copy]
      rfl
  · rintro rfl
    obtain ⟨k, hk⟩ := List.getElem?_of_mem ht
    have hk' : (c.descendants r)[k]? = some (f t.owner) := by
      rw [hids, List.getElem?_map, hk]
      rfl
    cases t with
    | node x => exact .node hk hk'
    | «attribute» x i => exact .attribute hk hk'

theorem Place.eq_of_rename_eq {f : NodeId → NodeId} {ids : List NodeId}
    (hf : ∀ x ∈ ids, ∀ y ∈ ids, f x = f y → x = y) {t u : Place} (ht : t.owner ∈ ids)
    (hu : u.owner ∈ ids) (h : t.rename f = u.rename f) : t = u := by
  cases t with
  | node x =>
    cases u with
    | node y => rw [hf x ht y hu (Place.node.inj h)]
    | «attribute» y j => cases h
  | «attribute» x i =>
    cases u with
    | node y => cases h
    | «attribute» y j =>
      obtain ⟨hxy, rfl⟩ := Place.attribute.inj h
      rw [hf x ht y hu hxy]

/-- For every place that paths can tell apart: a path is found for it exactly if the path leads to
the same place of the copy. So each such place has exactly one path, different places have
different paths, and each path that leads somewhere was found for the place it leads to. -/
theorem encode?_iff_decode?_copy {d c : Document} {root r : NodeId} (hd : d.IsForest)
    (hroot : d.contains root = true) (hc : d.IsCopy root c r) :
    (∀ t t', d.Below root t → SamePlace d root c r t t' →
      ∀ p, d.encode? root t = some p ↔ c.decode? r p = some t') ∧
    (∀ t, d.Below root t → ∃ t' p, SamePlace d root c r t t' ∧ d.encode? root t = some p ∧
      ∀ q, c.decode? r q = some t' ↔ q = p) ∧
    (∀ t u p, d.Below root t → d.Below root u →
      d.encode? root t = some p → d.encode? root u = some p → t = u) ∧
    (∀ p t', c.decode? r p = some t' →
      ∃ t, d.Below root t ∧ SamePlace d root c r t t' ∧ d.encode? root t = some p) := by
  obtain ⟨s, parent, rfl, hs, hn⟩ := hd.exists_holds hroot
  obtain ⟨s', parent', rfl, hs', hn', htree⟩ := hc.exists_holds hs hn
  obtain ⟨f, hid, hids, hmirror⟩ := hs.exists_renaming hn hs' htree
  have hsame : ∀ {t t'}, t.owner ∈ d.descendants s.id →
      (SamePlace d s.id c s'.id t t' ↔ t' = t.rename f) := fun ht =>
    samePlace_iff (by rw [hs'.descendants hn', hs.descendants hn, hids]) ht
  have hinj : ∀ x ∈ s.ids, ∀ y ∈ s.ids, f x = f y → x = y := fun x hx y hy =>
    List.inj_on_of_nodup_map (hids ▸ hn') hx hy
  have hdecode : ∀ p, c.decode? s'.id p = (d.decode? s.id p).map (Place.rename f) := fun p => by
    rw [hs'.decode?_eq, hs.decode?_eq, hid, hmirror.follow? s.id_mem_ids]
  have hmem : ∀ {t}, d.Below s.id t → t.owner ∈ s.ids := fun ht =>
    hs.descendants hn ▸ ht.owner_mem
  have hiff : ∀ {t}, d.Below s.id t →
      ∀ p, d.encode? s.id t = some p ↔ c.decode? s'.id p = some (t.rename f) := by
    intro t ht p
    rw [hs.encode?_eq_some_iff hn ht, hdecode, Option.map_eq_some_iff]
    constructor
    · exact fun h => ⟨t, h, rfl⟩
    · rintro ⟨u, hu, he⟩
      rwa [Place.eq_of_rename_eq hinj (hmem (hs.below_of_decode? hn hu)) (hmem ht) he] at hu
  refine ⟨?_, ?_, ?_, ?_⟩
  · intro t t' ht hsp p
    obtain rfl := (hsame ht.owner_mem).mp hsp
    exact hiff ht p
  · intro t ht
    obtain ⟨p, hp⟩ := hs.exists_decode? hn ht
    have henc := (hs.encode?_eq_some_iff hn ht).mpr hp
    refine ⟨t.rename f, p, (hsame ht.owner_mem).mpr rfl, henc, fun q => ?_⟩
    rw [← hiff ht q, henc, Option.some.injEq, eq_comm]
  · intro t u p ht hu hpt hpu
    rw [hs.encode?_eq_some_iff hn ht] at hpt
    rw [hs.encode?_eq_some_iff hn hu] at hpu
    exact Option.some.inj (hpt.symm.trans hpu)
  · intro p t' hp
    rw [hdecode, Option.map_eq_some_iff] at hp
    obtain ⟨t, ht, rfl⟩ := hp
    have hbelow := hs.below_of_decode? hn ht
    exact ⟨t, hbelow, (hsame hbelow.owner_mem).mpr rfl,
      (hs.encode?_eq_some_iff hn hbelow).mpr ht⟩

def listTree : Tree :=
  .node (.element "ul") [.leaf (.element "li"),
    .node ⟨.element "li", ⟨[("class", "x")]⟩, none⟩ [.leaf (.text "a")]]

def listDocument : Document := (empty.graft listTree).1

/-- Two of three elements were removed, the first of them last. -/
def recycledDocument : Document :=
  ((((empty.create (.element "p")).1.create (.element "p")).1.create (.element "p")).1.remove 1).remove 0

theorem isForest_listDocument : listDocument.IsForest := by
  obtain ⟨s, hcopy, -⟩ := tidy_empty.graft listTree
  refine IsForest.of_holds hcopy.holds hcopy.nodup fun x n hx => ?_
  by_contra hout
  have hnone : listDocument.node? x = empty.node? x := hcopy.frame x hout
  rw [hnone] at hx
  simp [empty, node?] at hx

theorem decode?_attribute_of_recycled_copy :
    listDocument.encode? 0 (.attribute 2 0) = some ⟨[.child .element "li" 1, .attribute "class"]⟩ ∧
      (recycledDocument.importFrom listDocument 0).1.decode? 0
        ⟨[.child .element "li" 1, .attribute "class"]⟩ = some (.attribute 3 0) := by
  have htidy : recycledDocument.Tidy :=
    ((((tidy_empty.alloc _).alloc _).alloc _).remove 1).remove 0
  have hcopy : listDocument.IsCopy 0 (recycledDocument.importFrom listDocument 0).1 0 :=
    .imported htidy rfl
  have hbelow : listDocument.Below 0 (.attribute 2 0) := by
    refine ⟨by decide, ?_⟩
    decide
  have hencode : listDocument.encode? 0 (.attribute 2 0) =
      some ⟨[.child .element "li" 1, .attribute "class"]⟩ := by decide
  have hplaces : SamePlace listDocument 0 (recycledDocument.importFrom listDocument 0).1 0
      (.attribute 2 0) (.attribute 3 0) := .attribute (k := 2) (by decide) (by decide)
  have hround := (encode?_iff_decode?_copy isForest_listDocument rfl hcopy).1 _ _ hbelow hplaces
  exact ⟨hencode, (hround _).mp hencode⟩

end Document

end LiveMarkup
