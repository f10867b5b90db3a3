import LiveMarkup.Proofs.Blueprint.Part
import LiveMarkup.Proofs.Document.Codec
import LiveMarkup.Instance.Basic

namespace LiveMarkup

inductive Site where
  | fixed (t : Tree) (s : Shape)
  | slot (id : NodeId) (name : String)
  | element (id : NodeId) (l : Label) (sites : List Site)
  | region (name : String) (l : Label) (parts : List Part)

namespace Site

mutual

def part : Site → Part
  | .fixed t _ => .fixed t
  | .slot _ name => .slot name
  | .element _ l ss => .element l (parts ss)
  | .region name l ps => .region name l ps

def parts : List Site → List Part
  | [] => []
  | s :: ss => part s :: parts ss

end

mutual

def shapes : Site → List Shape
  | .fixed _ s => [s]
  | .slot id _ => [.node id []]
  | .element id _ ss => [.node id (shapesAll ss)]
  | .region _ _ _ => []

def shapesAll : List Site → List Shape
  | [] => []
  | s :: ss => shapes s ++ shapesAll ss

end

/-- What is written at a node: the value of a property, or attributes. -/
inductive Mark where
  | text (name : String)
  | attributes (l : Label)

mutual

/-- The nodes that values are written to, in document order. -/
def marks : Site → List (NodeId × Mark)
  | .fixed _ _ => []
  | .slot id name => [(id, .text name)]
  | .element id l ss => (id, .attributes l) :: marksAll ss
  | .region _ _ _ => []

def marksAll : List Site → List (NodeId × Mark)
  | [] => []
  | s :: ss => marks s ++ marksAll ss

end

/-- A region with the node that its copies are put below. -/
structure Anchored where
  name : String
  anchor : NodeId
  label : Label
  parts : List Part

mutual

/-- The regions of a site below the node `x`. -/
def anchored (x : NodeId) : Site → List Anchored
  | .fixed _ _ => []
  | .slot _ _ => []
  | .element id _ ss => anchoredAll id ss
  | .region name l ps => [⟨name, x, l, ps⟩]

def anchoredAll (x : NodeId) : List Site → List Anchored
  | [] => []
  | s :: ss => anchored x s ++ anchoredAll x ss

end

theorem parts_append (ss us : List Site) : parts (ss ++ us) = parts ss ++ parts us := by
  induction ss with
  | nil => rfl
  | cons s ss ih => rw [List.cons_append, parts, ih, parts, List.cons_append]

theorem shapesAll_append (ss us : List Site) : shapesAll (ss ++ us) = shapesAll ss ++ shapesAll us := by
  induction ss with
  | nil => rfl
  | cons s ss ih => rw [List.cons_append, shapesAll, ih, shapesAll, List.append_assoc]

theorem marksAll_append (ss us : List Site) : marksAll (ss ++ us) = marksAll ss ++ marksAll us := by
  induction ss with
  | nil => rfl
  | cons s ss ih => rw [List.cons_append, marksAll, ih, marksAll, List.append_assoc]

theorem anchoredAll_append (x : NodeId) (ss us : List Site) :
    anchoredAll x (ss ++ us) = anchoredAll x ss ++ anchoredAll x us := by
  induction ss with
  | nil => rfl
  | cons s ss ih => rw [List.cons_append, anchoredAll, ih, anchoredAll, List.append_assoc]

mutual

theorem exists_sites (d : Document) :
    ∀ (p : Part) (cs : List Shape), cs.map d.treeAt = CompileContext.trees p →
      ∃ s : Site, s.part = p ∧ s.shapes = cs
  | .fixed t, cs, h => by
    cases cs with
    | nil => cases h
    | cons c cs =>
      obtain ⟨-, hrest⟩ := List.cons.inj h
      obtain rfl := List.map_eq_nil_iff.mp hrest
      exact ⟨.fixed t c, rfl, rfl⟩
  | .slot name, cs, h => by
    cases cs with
    | nil => cases h
    | cons c cs =>
      obtain ⟨hc, hrest⟩ := List.cons.inj h
      obtain rfl := List.map_eq_nil_iff.mp hrest
      obtain ⟨id, ks⟩ := c
      rw [Document.treeAt_node, Tree.leaf, Tree.node.injEq, List.map_eq_nil_iff] at hc
      obtain ⟨-, rfl⟩ := hc
      exact ⟨.slot id name, rfl, rfl⟩
  | .element l ps, cs, h => by
    cases cs with
    | nil => cases h
    | cons c cs =>
      obtain ⟨hc, hrest⟩ := List.cons.inj h
      obtain rfl := List.map_eq_nil_iff.mp hrest
      obtain ⟨id, ks⟩ := c
      rw [Document.treeAt_node, Tree.node.injEq] at hc
      obtain ⟨ss, rfl, rfl⟩ := exists_sitesAll d ps ks hc.2
      exact ⟨.element id l ss, rfl, rfl⟩
  | .region name l ps, cs, h => by
    obtain rfl := List.map_eq_nil_iff.mp h
    exact ⟨.region name l ps, rfl, rfl⟩

theorem exists_sitesAll (d : Document) :
    ∀ (ps : List Part) (cs : List Shape), cs.map d.treeAt = CompileContext.treesAll ps →
      ∃ ss : List Site, parts ss = ps ∧ shapesAll ss = cs
  | [], cs, h => by
    obtain rfl := List.map_eq_nil_iff.mp h
    exact ⟨[], rfl, rfl⟩
  | p :: ps, cs, h => by
    rw [CompileContext.treesAll, List.map_eq_append_iff] at h
    obtain ⟨first, rest, rfl, hfirst, hrest⟩ := h
    obtain ⟨s, rfl, rfl⟩ := exists_sites d p first hfirst
    obtain ⟨ss, rfl, rfl⟩ := exists_sitesAll d ps rest hrest
    exact ⟨s :: ss, rfl, rfl⟩

end

mutual

theorem names_anchored (x : NodeId) :
    ∀ s : Site, (anchored x s).map (·.name) = CompileContext.drivers s.part
  | .fixed _ _ => rfl
  | .slot _ _ => rfl
  | .element id _ ss => names_anchoredAll id ss
  | .region _ _ _ => rfl

theorem names_anchoredAll (x : NodeId) :
    ∀ ss : List Site, (anchoredAll x ss).map (·.name) = CompileContext.driversAll (parts ss)
  | [] => rfl
  | s :: ss => by
    rw [anchoredAll, parts, CompileContext.driversAll, List.map_append, names_anchored x s,
      names_anchoredAll x ss]

end

mutual

theorem marks_sublist : ∀ s : Site, ((marks s).map (·.1)).Sublist ((shapes s).flatMap Shape.ids)
  | .fixed _ _ => List.nil_sublist _
  | .slot id _ => by simp [marks, shapes, Shape.ids_node]
  | .element id l ss => by
    rw [marks, shapes, List.map_cons, List.flatMap_singleton, Shape.ids_node]
    exact (marksAll_sublist ss).cons_cons id
  | .region _ _ _ => List.nil_sublist _

theorem marksAll_sublist :
    ∀ ss : List Site, ((marksAll ss).map (·.1)).Sublist ((shapesAll ss).flatMap Shape.ids)
  | [] => List.nil_sublist _
  | s :: ss => by
    rw [marksAll, shapesAll, List.map_append, List.flatMap_append]
    exact (marks_sublist s).append (marksAll_sublist ss)

end

mutual

theorem anchor_mem {x : NodeId} : ∀ (s : Site), ∀ a ∈ anchored x s,
    a.anchor = x ∨ a.anchor ∈ (shapes s).flatMap Shape.ids
  | .fixed _ _ => by simp [anchored]
  | .slot _ _ => by simp [anchored]
  | .element id l ss => fun a ha => by
    rw [shapes, List.flatMap_singleton, Shape.ids_node, List.mem_cons]
    exact .inr (anchor_mem_all ss a ha)
  | .region name l ps => fun a ha => by
    rw [anchored, List.mem_singleton] at ha
    exact .inl (by rw [ha])

theorem anchor_mem_all {x : NodeId} : ∀ (ss : List Site), ∀ a ∈ anchoredAll x ss,
    a.anchor = x ∨ a.anchor ∈ (shapesAll ss).flatMap Shape.ids
  | [] => by simp [anchoredAll]
  | s :: ss => fun a ha => by
    rw [anchoredAll, List.mem_append] at ha
    rw [shapesAll, List.flatMap_append, List.mem_append]
    rcases ha with ha | ha
    · exact (anchor_mem s a ha).imp_right .inl
    · exact (anchor_mem_all ss a ha).imp_right .inr

end

end Site

end LiveMarkup
