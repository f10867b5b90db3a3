import LiveMarkup.Proofs.Blueprint.Sites
import Mathlib.Data.List.Basic

namespace LiveMarkup

open CompileContext Site

/-- The attributes of a node that are written to, for each of their properties. -/
def attributePlaces (ctx : CompileContext) (id : NodeId) (attributes : List (String × String)) :
    List (String × BoundLocation) :=
  attributes.zipIdx.flatMap fun a =>
    if hasMarkers a.1.2 then
      (ctx.namesIn a.1.2).map fun name => (name, ⟨.attribute id a.2, .ofText ctx.names a.1.2⟩)
    else []

def markPlaces (ctx : CompileContext) : NodeId × Mark → List (String × BoundLocation)
  | (id, .text name) => [(name, ⟨.node id, .wholeText⟩)]
  | (id, .attributes l) => attributePlaces ctx id l.attributes.entries

def places (ctx : CompileContext) (ms : List (NodeId × Mark)) : List (String × BoundLocation) :=
  ms.flatMap (markPlaces ctx)

theorem places_append (ctx : CompileContext) (ms ns : List (NodeId × Mark)) :
    places ctx (ms ++ ns) = places ctx ms ++ places ctx ns := by
  rw [places, places, places, List.flatMap_append]

namespace Document

variable {d : Document} {root x : NodeId} {path : Path}

/-- What a record leads to. -/
def located (d : Document) (root : NodeId) (r : String × BindingRecord) :
    String × Option Place × Expression :=
  (r.1, d.follow? root r.2.path.frames, r.2.expression)

def found (p : String × BoundLocation) : String × Option Place × Expression :=
  (p.1, some p.2.place, p.2.expression)

theorem follow?_extend (h : d.follow? root path.frames = some (.node x)) (f : Frame) :
    d.follow? root (path.extend f).frames = d.follow? x [f] :=
  follow?_append [f] h

theorem childAt?_frameAfter {bs rest : List NodeId} {c : NodeId} {l : Label}
    (hchildren : d.children x = bs ++ c :: rest) (hbs : ∀ b ∈ bs, d.contains b = true)
    (hc : d.label? c = some l) {k : NodeKind} {n : String} (hk : l.kind = k) (hn : l.name = n) :
    d.childAt? x k n ((bs.map d.labelAt).countP (Label.sameStep k n)) = some c := by
  have hcount : (bs.map d.labelAt).countP (Label.sameStep k n) = (bs.filter fun b =>
      ((d.label? b).map (Label.sameStep k n)).getD false).length := by
    rw [← List.countP_eq_length_filter, List.countP_map]
    refine List.countP_congr fun b hb => ?_
    obtain ⟨m, hm⟩ := contains_iff.mp (hbs b hb)
    rw [Function.comp_apply, labelAt, label?_of_node? hm]
    rfl
  have hsame : ((d.label? c).map (Label.sameStep k n)).getD false = true := by
    simp [hc, Label.sameStep, hk, hn]
  rw [childAt?, hchildren, List.filter_append, List.filter_cons_of_pos (by simpa using hsame),
    hcount, List.getElem?_append_right (Nat.le_refl _), Nat.sub_self]
  rfl

theorem follow?_frameAfter (hpath : d.follow? root path.frames = some (.node x)) {bs rest : List NodeId}
    {c : NodeId} {l l' : Label} (hchildren : d.children x = bs ++ c :: rest)
    (hbs : ∀ b ∈ bs, d.contains b = true) (hc : d.label? c = some l') (hkind : l'.kind = l.kind)
    (hname : l'.name = l.name) :
    d.follow? root (path.extend (frameAfter (bs.map d.labelAt) l)).frames = some (.node c) := by
  rw [follow?_extend hpath, frameAfter, follow?_child,
    childAt?_frameAfter hchildren hbs hc hkind hname, Option.bind_some, follow?]

theorem located_attributeRecords (ctx : CompileContext)
    (hpath : d.follow? root path.frames = some (.node x)) {l : Label} (hl : l.IsSound)
    (hx : d.label? x = some l.blanked) :
    (ctx.attributeRecords path l.attributes.entries).map (d.located root) =
      (attributePlaces ctx x l.attributes.entries).map found := by
  have hindex : ∀ a i, l.attributes.entries[i]? = some a →
      (d.attributes x).entries.findIdx? (fun b => b.1 == a.1) = some i := by
    intro a i ha
    have hentries : (d.attributes x).entries = l.attributes.entries.map fun a =>
        (a.1, if hasMarkers a.2 then "" else a.2) := by
      rw [Document.attributes, hx]
      rfl
    rw [hentries, findIdx?_name_eq_some_iff]
    refine ⟨(a.1, if hasMarkers a.2 then "" else a.2), by rw [List.getElem?_map, ha]; rfl, rfl,
      fun b hb hname => ?_⟩
    rw [← List.map_take] at hb
    obtain ⟨a', ha', rfl⟩ := List.mem_map.mp hb
    obtain ⟨j, hj, rfl⟩ := List.mem_take_iff_getElem.mp ha'
    obtain ⟨hi, rfl⟩ := List.getElem?_eq_some_iff.mp ha
    have hnodup := hl.nodup
    rw [Table.names, List.nodup_iff_injective_get] at hnodup
    have hsame := @hnodup ⟨j, by simp; omega⟩ ⟨i, by simpa using hi⟩ (by simpa using hname)
    have := congrArg Fin.val hsame
    simp only at this
    omega
  have hzip : l.attributes.entries = l.attributes.entries.zipIdx.map Prod.fst :=
    (List.zipIdx_map_fst 0 l.attributes.entries).symm
  rw [attributeRecords, attributePlaces, hzip, List.flatMap_map, ← hzip, List.map_flatMap,
    List.map_flatMap]
  refine List.flatMap_congr fun a ha => ?_
  have hat := hindex a.1 a.2 (List.mem_zipIdx_iff_getElem?.mp ha)
  split
  · rw [List.map_map, List.map_map]
    refine List.map_congr_left fun name _ => ?_
    simp only [Function.comp_apply, located, found]
    rw [follow?_extend hpath, follow?_attribute_eq_some_iff.mpr ⟨a.2, hat, rfl⟩]
  · rfl

/-- The document has the skeleton of the sites at the children of `x` behind the siblings `bs`. -/
structure Shows (d : Document) (x : NodeId) (bs : List NodeId) (ss : List Site) : Prop where
  holds : ∀ s ∈ shapesAll ss, d.Holds (some x) s
  trees : (shapesAll ss).map d.treeAt = treesAll (Site.parts ss)
  before : ∀ b ∈ bs, d.contains b = true

theorem Shows.label? {s : Shape} {par : Option NodeId} {l : Label} {ts : List Tree}
    (h : d.Holds par s) (ht : d.treeAt s = .node l ts) : d.label? s.id = some l := by
  obtain ⟨l', hread⟩ := h.read
  obtain ⟨id, cs⟩ := s
  rw [treeAt_node, Tree.node.injEq] at ht
  rw [Shape.id] at hread ⊢
  rw [← ht.1, labelAt, label?_of_node? hread]
  rfl

theorem Shows.singleton {s : Site} {bs : List NodeId} (h : d.Shows x bs [s]) :
    (∀ c ∈ s.shapes, d.Holds (some x) c) ∧ s.shapes.map d.treeAt = CompileContext.trees s.part := by
  have hholds := h.holds
  have htrees := h.trees
  rw [shapesAll, shapesAll, List.append_nil] at hholds htrees
  rw [Site.parts, treesAll, Site.parts, treesAll, List.append_nil] at htrees
  exact ⟨hholds, htrees⟩

theorem Shows.labels {s : Site} {bs : List NodeId} (h : d.Shows x bs [s]) :
    (bs ++ s.shapes.map Shape.id).map d.labelAt =
      bs.map d.labelAt ++ (CompileContext.trees s.part).map Tree.label := by
  rw [List.map_append, ← h.singleton.2, List.map_map, List.map_map]
  congr 1
  refine List.map_congr_left fun c _ => ?_
  obtain ⟨id, cs⟩ := c
  rw [Function.comp_apply, Function.comp_apply, treeAt_node]
  rfl

theorem Shows.head {s : Site} {ss : List Site} {bs : List NodeId} (h : d.Shows x bs (s :: ss)) :
    d.Shows x bs [s] ∧ d.Shows x (bs ++ s.shapes.map Shape.id) ss := by
  have hmem : ∀ c ∈ s.shapes, d.Holds (some x) c := fun c hc =>
    h.holds c (by rw [shapesAll, List.mem_append]; exact .inl hc)
  have htrees := h.trees
  rw [shapesAll, Site.parts, treesAll, List.map_append] at htrees
  have hlen : (s.shapes.map d.treeAt).length = (CompileContext.trees s.part).length := by
    cases s <;> rfl
  obtain ⟨hfirst, hrest⟩ := List.append_inj htrees hlen
  refine ⟨⟨?_, ?_, h.before⟩, ⟨?_, hrest, ?_⟩⟩
  · rw [shapesAll, shapesAll, List.append_nil]
    exact hmem
  · rw [shapesAll, shapesAll, List.append_nil, Site.parts, treesAll, Site.parts, treesAll,
      List.append_nil]
    exact hfirst
  · exact fun c hc => h.holds c (by rw [shapesAll, List.mem_append]; exact .inr hc)
  · intro b hb
    rcases List.mem_append.mp hb with hb | hb
    · exact h.before b hb
    · obtain ⟨c, hc, rfl⟩ := List.mem_map.mp hb
      exact (hmem c hc).contains

mutual

theorem located_records (ctx : CompileContext) {x : NodeId} {path : Path} {bs rest : List NodeId}
    (hpath : d.follow? root path.frames = some (.node x)) :
    ∀ s : Site, d.Shows x bs [s] → d.children x = bs ++ (s.shapes.map Shape.id ++ rest) →
      s.part.IsSound →
      (ctx.records path (bs.map d.labelAt) s.part).map (d.located root) =
        (places ctx s.marks).map found
  | .fixed _ _, _, _, _ => rfl
  | .slot id name, h, hchildren, _ => by
    obtain ⟨hholds, htrees⟩ := h.singleton
    have htext := Shows.label? (hholds _ List.mem_cons_self) (List.cons.inj htrees).1
    have hstep := follow?_frameAfter (l := .text "") hpath hchildren h.before htext rfl rfl
    rw [Site.part, records, marks, places]
    simp [located, found, markPlaces, hstep, Shape.id]
  | .element id l ss, h, hchildren, hsound => by
    obtain ⟨hholds, htrees⟩ := h.singleton
    have hheld := hholds _ List.mem_cons_self
    have htree := (List.cons.inj htrees).1
    have hlabel := Shows.label? hheld htree
    rw [treeAt_node, Tree.node.injEq] at htree
    have hstep := follow?_frameAfter (l := l) hpath hchildren h.before hlabel rfl rfl
    have hinside : d.Shows id [] ss := ⟨fun c hc => hheld.child hc, htree.2, by simp⟩
    have hbelow := located_recordsAll ctx hstep ss hinside hheld.children hsound.2
    rw [Site.part, records, marks, places, List.flatMap_cons, List.map_append, List.map_append,
      located_attributeRecords ctx hstep hsound.1 hlabel]
    congr 1
  | .region _ _ _, _, _, _ => rfl

theorem located_recordsAll (ctx : CompileContext) {x : NodeId} {path : Path} {bs : List NodeId}
    (hpath : d.follow? root path.frames = some (.node x)) :
    ∀ ss : List Site, d.Shows x bs ss → d.children x = bs ++ (shapesAll ss).map Shape.id →
      Part.AllSound (Site.parts ss) →
      (ctx.recordsAll path (bs.map d.labelAt) (Site.parts ss)).map (d.located root) =
        (places ctx (marksAll ss)).map found
  | [], _, _, _ => rfl
  | s :: ss, h, hchildren, hsound => by
    obtain ⟨hfirst, hrest⟩ := h.head
    rw [shapesAll, List.map_append] at hchildren
    rw [Site.parts, recordsAll, marksAll, places_append, List.map_append, List.map_append,
      located_records ctx hpath s hfirst hchildren hsound.1, ← hfirst.labels,
      located_recordsAll ctx hpath ss hrest (by rw [hchildren, List.append_assoc]) hsound.2]

end

def locatedRegion (d : Document) (root : NodeId) (g : String × Region Blueprint) :
    String × Option Place × Blueprint :=
  (g.1, d.follow? root g.2.anchor.frames, g.2.view)

def foundRegion (ctx : CompileContext) (a : Anchored) : String × Option Place × Blueprint :=
  (a.name, some (.node a.anchor), ctx.view a.label a.parts)

mutual

theorem located_regions (ctx : CompileContext) {x : NodeId} {path : Path} {bs rest : List NodeId}
    (hpath : d.follow? root path.frames = some (.node x)) :
    ∀ s : Site, d.Shows x bs [s] → d.children x = bs ++ (s.shapes.map Shape.id ++ rest) →
      (ctx.regions path (bs.map d.labelAt) s.part).map (d.locatedRegion root) =
        (s.anchored x).map (foundRegion ctx)
  | .fixed _ _, _, _ => rfl
  | .slot _ _, _, _ => rfl
  | .element id l ss, h, hchildren => by
    obtain ⟨hholds, htrees⟩ := h.singleton
    have hheld := hholds _ List.mem_cons_self
    have htree := (List.cons.inj htrees).1
    have hlabel := Shows.label? hheld htree
    rw [treeAt_node, Tree.node.injEq] at htree
    have hstep := follow?_frameAfter (l := l) hpath hchildren h.before hlabel rfl rfl
    have hinside : d.Shows id [] ss := ⟨fun c hc => hheld.child hc, htree.2, by simp⟩
    exact located_regionsAll ctx hstep ss hinside hheld.children
  | .region name l ps, _, _ => by
    rw [Site.part, regions, anchored, List.map_singleton, List.map_singleton, locatedRegion, hpath]
    rfl

theorem located_regionsAll (ctx : CompileContext) {x : NodeId} {path : Path} {bs : List NodeId}
    (hpath : d.follow? root path.frames = some (.node x)) :
    ∀ ss : List Site, d.Shows x bs ss → d.children x = bs ++ (shapesAll ss).map Shape.id →
      (ctx.regionsAll path (bs.map d.labelAt) (Site.parts ss)).map (d.locatedRegion root) =
        (anchoredAll x ss).map (foundRegion ctx)
  | [], _, _ => rfl
  | s :: ss, h, hchildren => by
    obtain ⟨hfirst, hrest⟩ := h.head
    rw [shapesAll, List.map_append] at hchildren
    rw [Site.parts, regionsAll, anchoredAll, List.map_append, List.map_append,
      located_regions ctx hpath s hfirst hchildren, ← hfirst.labels,
      located_regionsAll ctx hpath ss hrest (by rw [hchildren, List.append_assoc])]

end

end Document

end LiveMarkup
