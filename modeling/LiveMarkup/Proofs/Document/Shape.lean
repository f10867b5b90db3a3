import LiveMarkup.Proofs.Document.Slots
import Mathlib.Data.List.Nodup
import Mathlib.Data.List.Perm.Subperm

/-!
# Shapes

A shape is a tree of handles. A document holds a shape if the nodes are live and linked as the
shape says. What a document holds does not depend on labels, so writes to labels keep every shape,
and what is read of a held shape depends on nothing outside of it.
-/

namespace LiveMarkup

inductive Shape where
  | node (id : NodeId) (children : List Shape)

namespace Shape

def id : Shape → NodeId
  | node id _ => id

def children : Shape → List Shape
  | node _ cs => cs

@[elab_as_elim, induction_eliminator]
theorem induction {motive : Shape → Prop}
    (node : ∀ id cs, (∀ c ∈ cs, motive c) → motive (.node id cs)) : ∀ s, motive s
  | .node id cs => node id cs (go cs)
where
  go : ∀ cs : List Shape, ∀ c ∈ cs, motive c
    | [], _, h => by cases h
    | c :: cs, c', h =>
      (List.mem_cons.mp h).elim (fun e => e ▸ induction node c) (fun h => go cs c' h)

mutual

def ids : Shape → List NodeId
  | node id cs => id :: idsAll cs

def idsAll : List Shape → List NodeId
  | [] => []
  | c :: cs => ids c ++ idsAll cs

end

theorem idsAll_eq (cs : List Shape) : idsAll cs = cs.flatMap ids := by
  induction cs with
  | nil => rfl
  | cons c cs ih => rw [idsAll, ih, List.flatMap_cons]

theorem ids_node (id : NodeId) (cs : List Shape) : (node id cs).ids = id :: cs.flatMap ids := by
  rw [ids, idsAll_eq]

theorem id_mem_ids (s : Shape) : s.id ∈ s.ids := by
  obtain ⟨id, cs⟩ := s
  simp [ids_node, Shape.id]

theorem ids_subset_of_mem {id : NodeId} {cs : List Shape} {c : Shape} (h : c ∈ cs) :
    c.ids ⊆ (node id cs).ids := by
  intro x hx
  rw [ids_node]
  exact List.mem_cons_of_mem _ (List.mem_flatMap.mpr ⟨c, h, hx⟩)

theorem ne_of_nodup {id : NodeId} {cs : List Shape} (h : (node id cs).ids.Nodup) {c : Shape}
    (hc : c ∈ cs) {x : NodeId} (hx : x ∈ c.ids) : x ≠ id := by
  rintro rfl
  rw [ids_node, List.nodup_cons] at h
  exact h.1 (List.mem_flatMap.mpr ⟨c, hc, hx⟩)

theorem nodup_of_mem {id : NodeId} {cs : List Shape} (h : (node id cs).ids.Nodup) {c : Shape}
    (hc : c ∈ cs) : c.ids.Nodup := by
  rw [ids_node, List.nodup_cons, List.nodup_flatMap] at h
  exact h.2.1 c hc

theorem length_ids_lt (id : NodeId) {cs : List Shape} {c : Shape} (hc : c ∈ cs) :
    c.ids.length < (node id cs).ids.length := by
  rw [ids_node, List.length_cons]
  have hle := (List.sublist_flatten_of_mem (List.mem_map_of_mem (f := ids) hc)).length_le
  rw [← List.flatMap_def] at hle
  omega

end Shape

namespace Document

def links? (d : Document) (id : NodeId) : Option (Option NodeId × List NodeId) :=
  (d.node? id).map fun n => (n.parent, n.children)

/-- The nodes of a shape are live and linked as it says, its root to `parent`. -/
inductive Holds (d : Document) : Option NodeId → Shape → Prop where
  | node {parent : Option NodeId} {id : NodeId} {cs : List Shape} {l : Label}
      (read : d.node? id = some ⟨l, parent, cs.map Shape.id⟩)
      (below : ∀ c ∈ cs, Holds d (some id) c) : Holds d parent (.node id cs)

theorem Holds.read {d : Document} {parent : Option NodeId} {s : Shape} (h : d.Holds parent s) :
    ∃ l, d.node? s.id = some ⟨l, parent, s.children.map Shape.id⟩ := by
  cases h with
  | node read _ => exact ⟨_, read⟩

theorem Holds.child {d : Document} {parent : Option NodeId} {s : Shape} (h : d.Holds parent s)
    {c : Shape} (hc : c ∈ s.children) : d.Holds (some s.id) c := by
  cases h with
  | node _ below => exact below c hc

theorem Holds.live {d : Document} {parent : Option NodeId} {s : Shape} (h : d.Holds parent s) :
    ∀ x ∈ s.ids, ∃ n, d.node? x = some n := by
  induction h with
  | node read _ ih =>
    intro x hx
    rw [Shape.ids_node, List.mem_cons, List.mem_flatMap] at hx
    rcases hx with rfl | ⟨c, hc, hx⟩
    · exact ⟨_, read⟩
    · exact ih c hc x hx

theorem Holds.contains {d : Document} {parent : Option NodeId} {s : Shape} (h : d.Holds parent s) :
    d.contains s.id = true :=
  contains_iff.mpr (h.live _ s.id_mem_ids)

/-- Shapes are read off links, so documents with the same links hold the same shapes. -/
theorem Holds.of_links {d d' : Document} {parent : Option NodeId} {s : Shape}
    (h : d.Holds parent s) (same : ∀ x ∈ s.ids, d'.links? x = d.links? x) :
    d'.Holds parent s := by
  induction h with
  | @node parent id cs l read _ ih =>
    have hlinks := same id (by simp [Shape.ids_node])
    rw [links?, links?, read, Option.map_some, Option.map_eq_some_iff] at hlinks
    obtain ⟨⟨l', p', cs'⟩, hn, he⟩ := hlinks
    simp only [Prod.mk.injEq] at he
    obtain ⟨rfl, rfl⟩ := he
    exact .node hn fun c hc => ih c hc fun x hx => same x (Shape.ids_subset_of_mem hc hx)

theorem Holds.frame {d d' : Document} {parent : Option NodeId} {s : Shape}
    (h : d.Holds parent s) (same : ∀ x ∈ s.ids, d'.node? x = d.node? x) : d'.Holds parent s :=
  h.of_links fun x hx => by rw [links?, links?, same x hx]

theorem Holds.reparent {d d' : Document} {parent parent' : Option NodeId} {s : Shape} {l : Label}
    (h : d.Holds parent s)
    (root : d'.node? s.id = some ⟨l, parent', s.children.map Shape.id⟩)
    (same : ∀ c ∈ s.children, ∀ x ∈ c.ids, d'.links? x = d.links? x) : d'.Holds parent' s := by
  cases h with
  | node _ below => exact .node root fun c hc => (below c hc).of_links (same c hc)

def labelAt (d : Document) (id : NodeId) : Label := (d.label? id).getD (.text "")

mutual

def treeAt (d : Document) : Shape → Tree
  | .node id cs => .node (d.labelAt id) (treesAt d cs)

def treesAt (d : Document) : List Shape → List Tree
  | [] => []
  | c :: cs => treeAt d c :: treesAt d cs

end

theorem treesAt_eq (d : Document) (cs : List Shape) : d.treesAt cs = cs.map d.treeAt := by
  induction cs with
  | nil => rfl
  | cons c cs ih => rw [treesAt, ih, List.map_cons]

theorem treeAt_node (d : Document) (id : NodeId) (cs : List Shape) :
    d.treeAt (.node id cs) = .node (d.labelAt id) (cs.map d.treeAt) := by
  rw [treeAt, treesAt_eq]

theorem treeAt_congr {d d' : Document} {s : Shape}
    (same : ∀ x ∈ s.ids, d'.label? x = d.label? x) : d'.treeAt s = d.treeAt s := by
  induction s with
  | node id cs ih =>
    rw [treeAt_node, treeAt_node, labelAt, labelAt, same id (by simp [Shape.ids_node])]
    congr 1
    exact List.map_congr_left fun c hc =>
      ih c hc fun x hx => same x (Shape.ids_subset_of_mem hc hx)

theorem treeAt_frame {d d' : Document} {s : Shape} (same : ∀ x ∈ s.ids, d'.node? x = d.node? x) :
    d'.treeAt s = d.treeAt s :=
  treeAt_congr fun x hx => by rw [label?, label?, same x hx]

theorem Holds.length_ids_le {d : Document} {parent : Option NodeId} {s : Shape}
    (h : d.Holds parent s) (hn : s.ids.Nodup) : s.ids.length ≤ d.slots.size := by
  have hsub : s.ids ⊆ List.range d.slots.size := fun x hx => by
    obtain ⟨n, hx⟩ := h.live x hx
    exact List.mem_range.mpr (lt_size_of_node? hx)
  simpa using (hn.subperm hsub).length_le

theorem Holds.treeWithin {d : Document} {parent : Option NodeId} {s : Shape}
    (h : d.Holds parent s) {depth : Nat} (hd : s.ids.length ≤ depth) :
    d.treeWithin depth s.id = some (d.treeAt s) := by
  induction h generalizing depth with
  | @node parent id cs l read _ ih =>
    cases depth with
    | zero => simp [Shape.ids_node] at hd
    | succ depth =>
      have hchildren : (cs.map Shape.id).filterMap (d.treeWithin depth) = cs.map d.treeAt := by
        rw [List.filterMap_map, ← List.filterMap_eq_map]
        refine List.filterMap_congr fun c hc => ih c hc ?_
        have := Shape.length_ids_lt id hc
        omega
      rw [Shape.id, Document.treeWithin, read, Option.map_some, hchildren, treeAt_node, labelAt,
        label?_of_node? read]
      rfl

theorem Holds.tree? {d : Document} {parent : Option NodeId} {s : Shape} (h : d.Holds parent s)
    (hn : s.ids.Nodup) : d.tree? s.id = some (d.treeAt s) :=
  h.treeWithin (h.length_ids_le hn)

theorem Holds.render {d : Document} {parent : Option NodeId} {s : Shape} (h : d.Holds parent s)
    (hn : s.ids.Nodup) : d.render s.id = (d.treeAt s).render := by
  rw [Document.render, h.tree? hn]
  rfl

theorem Holds.children {d : Document} {parent : Option NodeId} {s : Shape} (h : d.Holds parent s) :
    d.children s.id = s.children.map Shape.id := by
  obtain ⟨l, read⟩ := h.read
  exact children_of_node? read

theorem exists_holds_next {d : Document} {id : NodeId} {cs ss : List Shape}
    (h : ∀ s ∈ .node id cs :: ss, ∃ parent, d.Holds parent s) {s : Shape} (hs : s ∈ cs ∨ s ∈ ss) :
    ∃ parent, d.Holds parent s := by
  rcases hs with hc | hs
  · obtain ⟨parent, hroot⟩ := h _ List.mem_cons_self
    exact ⟨some id, hroot.child hc⟩
  · exact h s (List.mem_cons_of_mem _ hs)

theorem walk_children {d : Document} (steps : Nat) {ss : List Shape}
    (h : ∀ s ∈ ss, ∃ parent, d.Holds parent s) (hsteps : (ss.flatMap Shape.ids).length ≤ steps) :
    walk d.children steps (ss.map Shape.id) = ss.flatMap Shape.ids := by
  induction steps generalizing ss with
  | zero =>
    cases ss with
    | nil => rfl
    | cons s ss =>
      obtain ⟨id, cs⟩ := s
      simp [Shape.ids_node] at hsteps
  | succ steps ih =>
    cases ss with
    | nil => rfl
    | cons s ss =>
      obtain ⟨parent, hs⟩ := h s List.mem_cons_self
      obtain ⟨id, cs⟩ := s
      have hnext : ∀ s ∈ cs ++ ss, ∃ parent, d.Holds parent s := fun s hmem =>
        exists_holds_next h (List.mem_append.mp hmem)
      have hlen : ((cs ++ ss).flatMap Shape.ids).length ≤ steps := by
        simp only [List.flatMap_cons, Shape.ids_node, List.length_append, List.length_cons,
          List.flatMap_append] at hsteps ⊢
        omega
      rw [List.map_cons, walk, hs.children, ← List.map_append, Shape.children, ih hnext hlen]
      simp [Shape.ids_node, Shape.id]

theorem Holds.descendants {d : Document} {parent : Option NodeId} {s : Shape}
    (h : d.Holds parent s) (hn : s.ids.Nodup) : d.descendants s.id = s.ids := by
  have hheld : ∀ t ∈ [s], ∃ parent, d.Holds parent t := by simpa using ⟨parent, h⟩
  have hwalk := walk_children d.slots.size hheld (by simpa using h.length_ids_le hn)
  rw [Document.descendants, if_pos h.contains]
  simpa using hwalk

end Document

end LiveMarkup
