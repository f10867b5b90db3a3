import LiveMarkup.Proofs.Document.Codec

namespace LiveMarkup

namespace Shape

mutual

def rename (f : NodeId → NodeId) : Shape → Shape
  | node id cs => node (f id) (renameAll f cs)

def renameAll (f : NodeId → NodeId) : List Shape → List Shape
  | [] => []
  | c :: cs => rename f c :: renameAll f cs

end

theorem renameAll_eq (f : NodeId → NodeId) (cs : List Shape) :
    renameAll f cs = cs.map (rename f) := by
  induction cs with
  | nil => rfl
  | cons c cs ih => rw [renameAll, ih, List.map_cons]

theorem rename_node (f : NodeId → NodeId) (id : NodeId) (cs : List Shape) :
    (node id cs).rename f = node (f id) (cs.map (rename f)) := by
  rw [rename, renameAll_eq]

theorem id_rename (f : NodeId → NodeId) (s : Shape) : (s.rename f).id = f s.id := by
  obtain ⟨id, cs⟩ := s
  rw [rename_node]
  rfl

theorem length_ids_of_treeAt {d c : Document} {s s' : Shape} (h : c.treeAt s' = d.treeAt s) :
    s'.ids.length = s.ids.length := by
  induction s generalizing s' with
  | node id cs ih =>
    obtain ⟨id', cs'⟩ := s'
    rw [Document.treeAt_node, Document.treeAt_node, Tree.node.injEq] at h
    rw [ids_node, ids_node, List.length_cons, List.length_cons]
    congr 1
    obtain ⟨_, h⟩ := h
    induction cs generalizing cs' with
    | nil =>
      obtain rfl : cs' = [] := by simpa using h
      rfl
    | cons k cs ihcs =>
      obtain ⟨k', cs', rfl, hk, hcs⟩ := List.map_eq_cons_iff.mp h
      rw [List.flatMap_cons, List.flatMap_cons, List.length_append, List.length_append,
        ih k List.mem_cons_self hk, ihcs (fun c hc => ih c (List.mem_cons_of_mem _ hc)) cs' hcs]

theorem eq_rename_of_ids {d c : Document} {f : NodeId → NodeId} {s s' : Shape}
    (h : c.treeAt s' = d.treeAt s) (hids : s'.ids = s.ids.map f) : s' = s.rename f := by
  induction s generalizing s' with
  | node id cs ih =>
    obtain ⟨id', cs'⟩ := s'
    rw [Document.treeAt_node, Document.treeAt_node, Tree.node.injEq] at h
    rw [ids_node, ids_node, List.map_cons, List.cons.injEq] at hids
    obtain ⟨rfl, hids⟩ := hids
    rw [rename_node]
    congr 1
    obtain ⟨_, h⟩ := h
    induction cs generalizing cs' with
    | nil => simpa using h
    | cons k cs ihcs =>
      obtain ⟨k', cs', rfl, htree, htrees⟩ := List.map_eq_cons_iff.mp h
      rw [List.flatMap_cons, List.flatMap_cons, List.map_append] at hids
      have hlen : k'.ids.length = (k.ids.map f).length := by
        rw [List.length_map]
        exact length_ids_of_treeAt htree
      obtain ⟨hk, hcs⟩ := List.append_inj hids hlen
      rw [List.map_cons, ih k List.mem_cons_self htree hk,
        ihcs (fun c hc => ih c (List.mem_cons_of_mem _ hc)) cs' hcs htrees]

end Shape

theorem exists_map_eq {xs ys : List NodeId} (hn : xs.Nodup) (hlen : ys.length = xs.length) :
    ∃ f : NodeId → NodeId, ys = xs.map f := by
  refine ⟨fun x => (ys[xs.idxOf x]?).getD 0, ?_⟩
  apply List.ext_getElem (by simp [hlen])
  intro i hi hi'
  have hix : i < xs.length := hlen ▸ hi
  simp [hn.idxOf_getElem i hix, hi]

namespace Place

def rename (f : NodeId → NodeId) : Place → Place
  | .node id => .node (f id)
  | .attribute owner index => .attribute (f owner) index

end Place

namespace Document

structure Mirrors (d c : Document) (f : NodeId → NodeId) (ids : List NodeId) : Prop where
  labels : ∀ x ∈ ids, c.label? (f x) = d.label? x
  children : ∀ x ∈ ids, c.children (f x) = (d.children x).map f
  closed : ∀ x ∈ ids, ∀ y ∈ d.children x, y ∈ ids

namespace Mirrors

variable {d c : Document} {f : NodeId → NodeId} {ids : List NodeId}

theorem attributes (h : Mirrors d c f ids) {x : NodeId} (hx : x ∈ ids) :
    c.attributes (f x) = d.attributes x := by
  rw [Document.attributes, Document.attributes, h.labels x hx]

theorem childAt? (h : Mirrors d c f ids) {x : NodeId} (hx : x ∈ ids) (k : NodeKind) (n : String)
    (o : Nat) : c.childAt? (f x) k n o = (d.childAt? x k n o).map f := by
  rw [Document.childAt?, Document.childAt?, h.children x hx, List.filter_map, List.getElem?_map]
  congr 2
  refine List.filter_congr fun y hy => ?_
  rw [Function.comp_apply, h.labels y (h.closed x hx y hy)]

theorem follow? (h : Mirrors d c f ids) {x : NodeId} (hx : x ∈ ids) (fs : List Frame) :
    c.follow? (f x) fs = (d.follow? x fs).map (Place.rename f) := by
  induction fs generalizing x with
  | nil => rfl
  | cons g fs ih =>
    rcases g with ⟨k, n, o⟩ | name
    · rw [follow?_child, follow?_child, h.childAt? hx]
      cases hy : d.childAt? x k n o with
      | none => rfl
      | some y =>
        have hmem := h.closed x hx y (List.mem_of_mem_filter (List.mem_of_getElem? hy))
        rw [Option.map_some, Option.bind_some, Option.bind_some, ih hmem]
    · rw [Document.follow?, Document.follow?, h.attributes hx]
      split
      · rw [Option.map_map]
        rfl
      · rfl

end Mirrors

theorem treeAt_label {d : Document} {parent : Option NodeId} {s : Shape} (h : d.Holds parent s) :
    d.label? s.id = some (d.treeAt s).label := by
  obtain ⟨id, cs⟩ := s
  obtain ⟨l, read⟩ := h.read
  rw [Shape.id] at read
  rw [treeAt_node, Tree.label, labelAt, Shape.id, label?_of_node? read]
  rfl

theorem Holds.mirrors {d c : Document} {parent parent' : Option NodeId} {s : Shape}
    {f : NodeId → NodeId} (h : d.Holds parent s) (h' : c.Holds parent' (s.rename f))
    (htree : c.treeAt (s.rename f) = d.treeAt s) : Mirrors d c f s.ids := by
  induction h generalizing parent' with
  | @node parent id cs l read below ih =>
    have hd := Holds.node read below
    have hlabel : c.label? (f id) = d.label? id := by
      have e := treeAt_label h'
      rw [htree, Shape.id_rename] at e
      exact e.trans (treeAt_label hd).symm
    have hchildren : c.children (f id) = (d.children id).map f := by
      have e := h'.children
      rw [Shape.id_rename, Shape.rename_node, Shape.children, List.map_map] at e
      rw [Shape.id] at e
      rw [e, children_of_node? read, List.map_map]
      exact List.map_congr_left fun k _ => Shape.id_rename f k
    rw [Shape.rename_node] at h' htree
    rw [treeAt_node, treeAt_node, Tree.node.injEq, List.map_map, List.map_inj_left] at htree
    have hbelow : ∀ k ∈ cs, Mirrors d c f k.ids := fun k hk =>
      ih k hk (h'.child (List.mem_map_of_mem hk)) (htree.2 k hk)
    refine ⟨?_, ?_, fun x hx y hy => (hd.children_subset hx hy).1⟩
    · intro x hx
      rw [Shape.ids_node, List.mem_cons, List.mem_flatMap] at hx
      rcases hx with rfl | ⟨k, hk, hx⟩
      · exact hlabel
      · exact (hbelow k hk).labels x hx
    · intro x hx
      rw [Shape.ids_node, List.mem_cons, List.mem_flatMap] at hx
      rcases hx with rfl | ⟨k, hk, hx⟩
      · exact hchildren
      · exact (hbelow k hk).children x hx

theorem Holds.exists_renaming {d c : Document} {parent parent' : Option NodeId} {s s' : Shape}
    (h : d.Holds parent s) (hn : s.ids.Nodup) (h' : c.Holds parent' s')
    (htree : c.treeAt s' = d.treeAt s) :
    ∃ f, s'.id = f s.id ∧ s'.ids = s.ids.map f ∧ Mirrors d c f s.ids := by
  obtain ⟨f, hf⟩ := exists_map_eq hn (Shape.length_ids_of_treeAt htree)
  obtain rfl := Shape.eq_rename_of_ids htree hf
  exact ⟨f, Shape.id_rename f s, hf, h.mirrors h' htree⟩

end Document

end LiveMarkup
