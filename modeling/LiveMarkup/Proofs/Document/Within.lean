import LiveMarkup.Proofs.Document.Growth

namespace LiveMarkup

namespace Shape

inductive Within (k : Shape) : Shape → Prop where
  | self : Within k k
  | child {id : NodeId} {cs : List Shape} {c : Shape} (mem : c ∈ cs) (within : Within k c) :
      Within k (.node id cs)

variable {k s : Shape}

theorem exists_within {x : NodeId} (hx : x ∈ s.ids) : ∃ k : Shape, k.Within s ∧ k.id = x := by
  induction s with
  | node id cs ih =>
    rw [ids_node, List.mem_cons, List.mem_flatMap] at hx
    rcases hx with rfl | ⟨c, hc, hx⟩
    · exact ⟨_, .self, rfl⟩
    · obtain ⟨k, hk, hid⟩ := ih c hc hx
      exact ⟨k, .child hc hk, hid⟩

namespace Within

theorem ids_subset (h : k.Within s) : k.ids ⊆ s.ids := by
  induction h with
  | self => exact List.Subset.refl _
  | child mem _ ih => exact List.Subset.trans ih (ids_subset_of_mem mem)

theorem nodup (h : k.Within s) (hn : s.ids.Nodup) : k.ids.Nodup := by
  induction h with
  | self => exact hn
  | child mem _ ih => exact ih (nodup_of_mem hn mem)

theorem extendBy (h : k.Within s) (more : NodeId → List Shape) :
    (k.extendBy more).Within (s.extendBy more) := by
  induction h with
  | self => exact .self
  | child mem _ ih =>
    rw [extendBy_node]
    exact .child (List.mem_append_left _ (List.mem_map_of_mem mem)) ih

end Within

end Shape

namespace Document

variable {d d' : Document} {q : Option NodeId} {k s c : Shape} {a : NodeId}

theorem Holds.within (h : d.Holds q s) (hk : k.Within s) : ∃ r, d.Holds r k := by
  induction hk generalizing q with
  | self => exact ⟨q, h⟩
  | child mem _ ih => exact ih (h.child mem)

theorem Holds.of_extendAt {ts : List Shape} (h : d.Holds q (s.extendAt a ts)) (ha : a ∈ s.ids)
    (hc : c ∈ ts) : d.Holds (some a) c := by
  induction s generalizing q with
  | node id cs ih =>
    rw [Shape.extendAt, Shape.extendBy_node] at h
    rw [Shape.ids_node, List.mem_cons, List.mem_flatMap] at ha
    rcases ha with rfl | ⟨k, hk, ha⟩
    · exact h.child (List.mem_append_right _ (by rwa [if_pos rfl]))
    · exact ih k hk (h.child (List.mem_append_left _ (List.mem_map_of_mem hk))) ha

theorem Holds.within_extendAt (h : d.Holds q (s.extendAt a [c])) (ha : a ∈ s.ids) :
    c.Within (s.extendAt a [c]) := by
  have hc : c.id ∈ (s.extendAt a [c]).ids :=
    Shape.mem_ids_extendAt.mpr (.inr ⟨ha, by simpa using c.id_mem_ids⟩)
  obtain ⟨k, hk, hid⟩ := Shape.exists_within hc
  obtain ⟨r, hr⟩ := h.within hk
  exact hr.unique (h.of_extendAt ha List.mem_cons_self) hid ▸ hk

theorem Holds.node?_extendBy {more : NodeId → List Shape} (h : d.Holds q s)
    (h' : d'.Holds q (s.extendBy more)) {x : NodeId} (hx : x ∈ s.ids) (hmore : more x = [])
    (hlabel : d'.label? x = d.label? x) : d'.node? x = d.node? x := by
  induction h with
  | @node q id cs l read below ih =>
    rw [Shape.extendBy_node] at h'
    rw [Shape.ids_node, List.mem_cons, List.mem_flatMap] at hx
    rcases hx with rfl | ⟨c, hc, hx⟩
    · obtain ⟨l', read'⟩ := h'.read
      rw [Shape.id] at read'
      rw [label?_of_node? read, label?_of_node? read'] at hlabel
      obtain rfl : l' = l := Option.some.inj hlabel
      rw [read, read', Shape.children, hmore]
      simp [Function.comp_def]
    · exact ih c hc (h'.child (List.mem_append_left _ (List.mem_map_of_mem hc))) hx

end Document

end LiveMarkup
