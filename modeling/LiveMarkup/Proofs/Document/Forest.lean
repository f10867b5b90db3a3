import LiveMarkup.Proofs.Document.Codec
import Mathlib.Data.Fintype.Order
import Mathlib.Logic.Relation
import Mathlib.Order.WellFounded

/-!
# Documents that are forests

In a forest the child lists and the parent links agree and no node is above itself, so every live
node is the root of a held shape.
-/

namespace LiveMarkup

namespace Document

def IsParent (d : Document) (c p : NodeId) : Prop := d.parent? c = some p

/-- The parent links form a forest, and the child lists say the same as the links. -/
structure IsForest (d : Document) : Prop where
  linked : ∀ c p, c ∈ d.children p ↔ d.IsParent c p
  nodup : ∀ p, (d.children p).Nodup
  acyclic : ∀ x, ¬ Relation.TransGen d.IsParent x x

namespace IsForest

variable {d : Document}

theorem live_of_isParent {c p : NodeId} (h : d.IsParent c p) : ∃ n, d.node? c = some n := by
  rw [IsParent, parent?, Option.bind_eq_some_iff] at h
  obtain ⟨n, hn, _⟩ := h
  exact ⟨n, hn⟩

theorem live_of_mem_children {c p : NodeId} (h : c ∈ d.children p) : ∃ n, d.node? p = some n := by
  cases hn : d.node? p with
  | none => simp [Document.children, hn] at h
  | some n => exact ⟨n, rfl⟩

end IsForest

/-- The child lists say the same as the parent links, and name each child once. -/
structure Linked (d : Document) : Prop where
  linked : ∀ c p, c ∈ d.children p ↔ d.IsParent c p
  nodup : ∀ p, (d.children p).Nodup

/-- No node at or below `x` is above itself. -/
def Grounded (d : Document) (x : NodeId) : Prop :=
  ∀ y, Relation.ReflTransGen d.IsParent y x → ¬ Relation.TransGen d.IsParent y y

theorem Grounded.acyclic {d : Document} {x : NodeId} (h : d.Grounded x) :
    ¬ Relation.TransGen d.IsParent x x := h x .refl

theorem Grounded.of_isParent {d : Document} {c p : NodeId} (h : d.Grounded p)
    (hc : d.IsParent c p) : d.Grounded c := fun y hy => h y (hy.tail hc)

namespace Linked

variable {d : Document}

/-- Induction from the children to their parent. There are only finitely many nodes, so where no
node is above itself there is no way down without end. -/
theorem childInduction (h : d.Linked) {motive : ∀ p, d.Grounded p → Prop}
    (step : ∀ p (hp : d.Grounded p),
      (∀ c (hc : c ∈ d.children p), motive c (hp.of_isParent ((h.linked c p).mp hc))) → motive p hp)
    (p : NodeId) (hp : d.Grounded p) : motive p hp := by
  let below : Fin d.slots.size → Fin d.slots.size → Prop := fun c p =>
    d.Grounded c ∧ Relation.TransGen d.IsParent c p
  have : IsTrans (Fin d.slots.size) below := ⟨fun _ _ _ hab hbc => ⟨hab.1, hab.2.trans hbc.2⟩⟩
  have : Std.Irrefl below := ⟨fun x hx => hx.1.acyclic hx.2⟩
  have hwf : WellFounded below := Finite.wellFounded_of_trans_of_irrefl below
  have hinside : ∀ (p : Fin d.slots.size) (hp : d.Grounded p), motive p hp := fun p => by
    induction p using hwf.induction with
    | _ p ih =>
      intro hp
      refine step p hp fun c hc => ?_
      have hcp := (h.linked c p).mp hc
      obtain ⟨n, hn⟩ := IsForest.live_of_isParent hcp
      have hg := hp.of_isParent hcp
      exact ih ⟨c, lt_size_of_node? hn⟩ ⟨hg, .single hcp⟩ hg
  by_cases hlt : p < d.slots.size
  · exact hinside ⟨p, hlt⟩ hp
  · refine step p hp fun c hc => ?_
    obtain ⟨n, hn⟩ := IsForest.live_of_mem_children hc
    exact absurd (lt_size_of_node? hn) hlt

theorem below_of_mem_ids {parent : Option NodeId} {s : Shape} (hs : d.Holds parent s) {x : NodeId}
    (hx : x ∈ s.ids) : Relation.ReflTransGen d.IsParent x s.id := by
  induction hs with
  | @node parent id cs l read below ih =>
    rw [Shape.ids_node, List.mem_cons, List.mem_flatMap] at hx
    rcases hx with rfl | ⟨c, hc, hx⟩
    · exact .refl
    · obtain ⟨l', hread⟩ := (below c hc).read
      exact (ih c hc hx).tail (parent?_of_node? hread)

theorem disjoint_of_siblings {p : NodeId} (hp : d.Grounded p) {s t : Shape}
    (hs : d.Holds (some p) s) (ht : d.Holds (some p) t) (hne : s.id ≠ t.id) :
    s.ids.Disjoint t.ids := by
  intro x hxs hxt
  have above : ∀ {s t : Shape}, d.Holds (some p) s → d.Holds (some p) t → s.id ≠ t.id →
      ¬ Relation.ReflTransGen d.IsParent s.id t.id := by
    intro s t hs ht hne hup
    obtain ⟨ls, hreads⟩ := hs.read
    obtain ⟨lt, hreadt⟩ := ht.read
    rcases Relation.ReflTransGen.cases_head hup with e | ⟨q, hq, hup⟩
    · exact hne e
    · obtain rfl : p = q := Option.some.inj ((parent?_of_node? hreads).symm.trans hq)
      exact hp.acyclic (.tail' hup (parent?_of_node? hreadt))
  have hunique : Relator.RightUnique d.IsParent := fun a b c hb hc =>
    Option.some.inj (hb.symm.trans hc)
  rcases (below_of_mem_ids hs hxs).total_of_right_unique hunique (below_of_mem_ids ht hxt) with
    hup | hup
  · exact above hs ht hne hup
  · exact above ht hs (Ne.symm hne) hup

theorem exists_shapes {ids : List NodeId} {P : Shape → Prop}
    (h : ∀ x ∈ ids, ∃ s : Shape, s.id = x ∧ P s) :
    ∃ ss : List Shape, ss.map Shape.id = ids ∧ ∀ s ∈ ss, P s := by
  induction ids with
  | nil => exact ⟨[], rfl, by simp⟩
  | cons x ids ih =>
    obtain ⟨s, rfl, hs⟩ := h x List.mem_cons_self
    obtain ⟨ss, rfl, hss⟩ := ih fun y hy => h y (List.mem_cons_of_mem _ hy)
    exact ⟨s :: ss, rfl, by simpa using ⟨hs, hss⟩⟩

theorem nodup_flatMap_ids {p : NodeId} (hp : d.Grounded p) {ss : List Shape}
    (hid : (ss.map Shape.id).Nodup) (hss : ∀ s ∈ ss, d.Holds (some p) s ∧ s.ids.Nodup) :
    (ss.flatMap Shape.ids).Nodup := by
  rw [List.nodup_flatMap]
  refine ⟨fun s hs => (hss s hs).2, ?_⟩
  rw [List.Nodup, List.pairwise_map] at hid
  exact hid.imp_of_mem fun hs ht hne => disjoint_of_siblings hp (hss _ hs).1 (hss _ ht).1 hne

/-- A live node is the root of a held shape if there is no loop at or below it. -/
theorem exists_holds (h : d.Linked) {id : NodeId} (hid : d.Grounded id)
    (hlive : d.contains id = true) : ∃ s parent, s.id = id ∧ d.Holds parent s ∧ s.ids.Nodup := by
  revert hlive
  induction id, hid using h.childInduction with
  | step id hid ih =>
    intro hlive
    obtain ⟨⟨l, parent, children⟩, hread⟩ := contains_iff.mp hlive
    have hkids : ∀ c ∈ d.children id, ∃ s : Shape, s.id = c ∧ d.Holds (some id) s ∧ s.ids.Nodup := by
      intro c hc
      have hparent := (h.linked c id).mp hc
      obtain ⟨s, parent, rfl, hs, hn⟩ := ih c hc (contains_iff.mpr (IsForest.live_of_isParent hparent))
      obtain ⟨l', hread⟩ := hs.read
      obtain rfl : parent = some id := (parent?_of_node? hread).symm.trans hparent
      exact ⟨s, rfl, hs, hn⟩
    obtain ⟨ss, hids, hss⟩ := exists_shapes hkids
    obtain rfl : ss.map Shape.id = children := by rw [hids, children_of_node? hread]
    have hnodup := nodup_flatMap_ids hid (hids ▸ h.nodup id) hss
    refine ⟨.node id ss, parent, rfl, .node hread fun s hs => (hss s hs).1, ?_⟩
    rw [Shape.ids_node, List.nodup_cons]
    refine ⟨fun hmem => ?_, hnodup⟩
    obtain ⟨s, hs, hmem⟩ := List.mem_flatMap.mp hmem
    obtain ⟨l', hread'⟩ := (hss s hs).1.read
    exact hid.acyclic (.tail' (below_of_mem_ids (hss s hs).1 hmem) (parent?_of_node? hread'))

end Linked

namespace IsForest

variable {d : Document}

theorem toLinked (h : d.IsForest) : d.Linked := ⟨h.linked, h.nodup⟩

theorem grounded (h : d.IsForest) (x : NodeId) : d.Grounded x := fun y _ => h.acyclic y

/-- Every live node of a forest is the root of a held shape. -/
theorem exists_holds (h : d.IsForest) {id : NodeId} (hlive : d.contains id = true) :
    ∃ s parent, s.id = id ∧ d.Holds parent s ∧ s.ids.Nodup :=
  h.toLinked.exists_holds (h.grounded id) hlive

theorem not_above_self {x p : NodeId} (hx : d.IsParent x p)
    (hp : ¬ Relation.TransGen d.IsParent p p) : ¬ Relation.TransGen d.IsParent x x := by
  intro h
  obtain ⟨q, hq, hup⟩ := Relation.TransGen.head'_iff.mp h
  obtain rfl : p = q := Option.some.inj (hx.symm.trans hq)
  exact hp (Relation.TransGen.tail' hup hx)

theorem not_above_self_of_mem_ids {parent : Option NodeId} {s : Shape} (hs : d.Holds parent s)
    (hroot : ¬ Relation.TransGen d.IsParent s.id s.id) :
    ∀ x ∈ s.ids, ¬ Relation.TransGen d.IsParent x x := by
  induction hs with
  | @node parent id cs l read below ih =>
    intro x hx
    rw [Shape.ids_node, List.mem_cons, List.mem_flatMap] at hx
    rcases hx with rfl | ⟨c, hc, hx⟩
    · exact hroot
    · obtain ⟨l', hread⟩ := (below c hc).read
      exact ih c hc (not_above_self (parent?_of_node? hread) hroot) x hx

theorem mem_children_of_isParent {parent : Option NodeId} {s : Shape} (hs : d.Holds parent s)
    {x p : NodeId} (hx : x ∈ s.ids) (hp : d.IsParent x p) : x = s.id ∨ x ∈ d.children p := by
  induction hs with
  | @node parent id cs l read below ih =>
    rw [Shape.ids_node, List.mem_cons, List.mem_flatMap] at hx
    rcases hx with rfl | ⟨c, hc, hx⟩
    · exact .inl rfl
    · rcases ih c hc hx with rfl | hmem
      · obtain ⟨l', hread⟩ := (below c hc).read
        obtain rfl : id = p := Option.some.inj ((parent?_of_node? hread).symm.trans hp)
        rw [children_of_node? read]
        exact .inr (List.mem_map_of_mem hc)
      · exact .inr hmem

theorem of_holds {s : Shape} (hs : d.Holds none s) (hn : s.ids.Nodup)
    (hall : ∀ x n, d.node? x = some n → x ∈ s.ids) : d.IsForest := by
  have hroot : ∀ p, ¬ d.IsParent s.id p := by
    obtain ⟨l, hread⟩ := hs.read
    intro p hp
    rw [IsParent, parent?_of_node? hread] at hp
    cases hp
  have hup : ∀ c ∈ s.ids, ∀ p, d.IsParent c p → c ∈ d.children p := fun c hc p hp =>
    (mem_children_of_isParent hs hc hp).resolve_left fun e => hroot p (e ▸ hp)
  refine ⟨fun c p => ⟨fun hc => ?_, fun hc => ?_⟩, fun p => ?_, fun x hx => ?_⟩
  · obtain ⟨n, hp⟩ := live_of_mem_children hc
    obtain ⟨-, m, hm, hparent⟩ := hs.children_subset (hall p n hp) hc
    exact (parent?_of_node? hm).trans hparent
  · obtain ⟨n, hn⟩ := live_of_isParent hc
    exact hup c (hall c n hn) p hc
  · cases hp : d.node? p with
    | none => simp [Document.children, hp]
    | some n => exact hs.children_nodup hn (hall p n hp)
  · obtain ⟨q, hq, -⟩ := Relation.TransGen.head'_iff.mp hx
    obtain ⟨n, hlive⟩ := live_of_isParent hq
    refine not_above_self_of_mem_ids hs (fun h => ?_) x (hall x n hlive) hx
    obtain ⟨p, hp, -⟩ := Relation.TransGen.head'_iff.mp h
    exact hroot p hp

end IsForest

end Document

end LiveMarkup
