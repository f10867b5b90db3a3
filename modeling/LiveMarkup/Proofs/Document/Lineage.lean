import LiveMarkup.Proofs.Document.Growth

namespace LiveMarkup

namespace Document

/-- The node `c` has the parent `p` and is one of its children. -/
def Link (d : Document) (c p : NodeId) : Prop := d.parent? c = some p ∧ c ∈ d.children p

/-- The node `x` is `r` or below it. -/
def Under (d : Document) : NodeId → NodeId → Prop := Relation.ReflTransGen d.Link

/-- The way up from `x` ends at a node without a parent. -/
def Rooted (d : Document) (x : NodeId) : Prop := ∃ r, d.Under x r ∧ d.parent? r = none

variable {d d' : Document} {c p r x y z : NodeId}

theorem Link.unique {q : NodeId} (hp : d.Link c p) (hq : d.Link c q) : p = q :=
  Option.some.inj (hp.1.symm.trans hq.1)

theorem rightUnique_link (d : Document) : Relator.RightUnique d.Link := fun _ _ _ hp hq => hp.unique hq

theorem Link.live_child (h : d.Link c p) : ∃ n, d.node? c = some n := IsForest.live_of_isParent h.1

theorem Link.live_parent (h : d.Link c p) : ∃ n, d.node? p = some n :=
  IsForest.live_of_mem_children h.2

theorem Under.total (hy : d.Under x y) (hz : d.Under x z) : d.Under y z ∨ d.Under z y :=
  Relation.ReflTransGen.total_of_right_unique (rightUnique_link d) hy hz

theorem Under.of_links (h : d.Under x r)
    (keep : ∀ c p, d.Link c p → d.Under p r → d'.Link c p) : d'.Under x r := by
  induction h using Relation.ReflTransGen.head_induction_on with
  | refl => exact .refl
  | head hlink hup ih => exact .head (keep _ _ hlink hup) ih

theorem Rooted.of_under (hr : d.Rooted r) (h : d.Under x r) : d.Rooted x := by
  obtain ⟨top, htop, hnone⟩ := hr
  exact ⟨top, h.trans htop, hnone⟩

/-- All that is above a node of a loop is in the loop, so no way up from it ends. -/
theorem Rooted.acyclic (h : d.Rooted x) : ¬ Relation.TransGen d.Link x x := by
  obtain ⟨r, hup, hnone⟩ := h
  induction hup using Relation.ReflTransGen.head_induction_on with
  | refl =>
    intro hloop
    obtain ⟨p, hp, -⟩ := Relation.TransGen.head'_iff.mp hloop
    rw [hp.1] at hnone
    cases hnone
  | @head x y hlink hup ih =>
    intro hloop
    obtain ⟨q, hq, hback⟩ := Relation.TransGen.head'_iff.mp hloop
    obtain rfl := hq.unique hlink
    exact ih (Relation.TransGen.tail' hback hlink)

theorem Rooted.not_under (h : d.Rooted r) (hx : Relation.TransGen d.Link x r) : ¬ d.Under r x :=
  fun hr => h.acyclic (Relation.TransGen.trans_right hr hx)

/-! ### Held shapes -/

theorem Holds.mem_ids_iff {parent : Option NodeId} {s : Shape} (h : d.Holds parent s) :
    x ∈ s.ids ↔ d.Under x s.id := by
  constructor
  · intro hx
    induction h with
    | @node parent id cs l read below ih =>
      rw [Shape.ids_node, List.mem_cons, List.mem_flatMap] at hx
      rcases hx with rfl | ⟨c, hc, hx⟩
      · exact .refl
      · obtain ⟨l', hread⟩ := (below c hc).read
        refine (ih c hc hx).tail ⟨parent?_of_node? hread, ?_⟩
        rw [Shape.id, children_of_node? read]
        exact List.mem_map_of_mem hc
  · intro hx
    induction hx using Relation.ReflTransGen.head_induction_on with
    | refl => exact s.id_mem_ids
    | head hlink _ ih => exact (h.children_subset ih hlink.2).1

theorem Holds.parent?_eq {parent : Option NodeId} {s : Shape} (h : d.Holds parent s) :
    d.parent? s.id = parent := by
  obtain ⟨l, hread⟩ := h.read
  exact parent?_of_node? hread

theorem Holds.rooted {s : Shape} (h : d.Holds none s) (hx : x ∈ s.ids) : d.Rooted x :=
  ⟨s.id, h.mem_ids_iff.mp hx, h.parent?_eq⟩

/-! ### What keeps links -/

theorem children_congr (h : d'.links? x = d.links? x) : d'.children x = d.children x := by
  have hchildren := congrArg
    (fun l => (l.map fun l : Option NodeId × List NodeId => l.2).getD []) h
  simp only [links?, Option.map_map, Function.comp_def] at hchildren
  exact hchildren

theorem link_congr (hc : d'.links? c = d.links? c) (hp : d'.links? p = d.links? p) :
    d'.Link c p ↔ d.Link c p := by
  have hparent := congrArg (fun l => l.bind fun l : Option NodeId × List NodeId => l.1) hc
  simp only [links?, Option.bind_map, Function.comp_def] at hparent
  rw [Link, Link, parent?, parent?, children_congr hp, hparent]

theorem link_of_nodes (hc : d'.node? c = d.node? c) (hp : d'.node? p = d.node? p) :
    d'.Link c p ↔ d.Link c p :=
  link_congr (by rw [links?, links?, hc]) (by rw [links?, links?, hp])

theorem Grown.link {ss : List Shape} (h : Grown d d' ss) (hlink : d.Link c p) : d'.Link c p := by
  obtain ⟨n, hn⟩ := hlink.live_child
  obtain ⟨m, hm⟩ := hlink.live_parent
  exact (link_of_nodes (h.keeps hn) (h.keeps hm)).mpr hlink

theorem link_append_iff {a : NodeId} {n m : Node} (ha : d.node? a = some n)
    (hc : d.node? c = some m) (hroot : m.parent = none) (hne : a ≠ c) :
    (d.append a c).Link x p ↔ d.Link x p ∨ (x = c ∧ p = a) := by
  have hnode := node?_append ha hc hroot hne
  have hparent : (d.append a c).parent? x = if x = c then some a else d.parent? x := by
    rw [parent?, parent?, hnode]
    by_cases hx : x = c
    · simp [hx, hc]
    · cases d.node? x <;> simp [hx]
  have hchildren : (d.append a c).children p =
      if p = a then d.children p ++ [c] else d.children p := by
    rw [Document.children, Document.children, hnode]
    by_cases hp : p = a
    · simp [hp, ha]
    · cases d.node? p <;> simp [hp]
  rw [Link, Link, hparent, hchildren]
  by_cases hx : x = c
  · subst hx
    have hnone : d.parent? x = none := by rw [parent?_of_node? hc, hroot]
    by_cases hp : p = a
    · simp [hp]
    · have hpa : ¬ a = p := fun e => hp e.symm
      simp [hp, hpa, hnone]
  · by_cases hp : p = a <;> simp [hx, hp]

/-- Just the links at the nodes of the subtree go. -/
theorem Holds.link_remove_iff {parent : Option NodeId} {s : Shape} (h : d.Holds parent s)
    (hn : s.ids.Nodup) (hout : ∀ q, parent = some q → q ∉ s.ids) :
    (d.remove s.id).Link c p ↔ d.Link c p ∧ ¬ d.Under c s.id := by
  have hnode := h.node?_remove hn hout
  rw [← h.mem_ids_iff]
  constructor
  · rintro ⟨hparent, hmem⟩
    have hc : c ∉ s.ids := fun hc => by
      rw [parent?, hnode, if_pos hc] at hparent
      cases hparent
    have hp : p ∉ s.ids := fun hp => by
      rw [Document.children, hnode, if_pos hp] at hmem
      cases hmem
    rw [parent?, hnode, if_neg hc, Option.bind_map] at hparent
    rw [Document.children, hnode, if_neg hp, Option.map_map] at hmem
    refine ⟨⟨hparent, ?_⟩, hc⟩
    rw [Document.children]
    cases hread : d.node? p with
    | none => simp [hread] at hmem
    | some n =>
      rw [hread] at hmem
      by_cases hsp : parent = some p
      · simp only [Option.map_some, Function.comp_apply, if_pos hsp, Option.getD_some] at hmem
        exact List.mem_of_mem_filter hmem
      · simpa [hsp] using hmem
  · rintro ⟨⟨hparent, hmem⟩, hc⟩
    have hne : c ≠ s.id := fun e => hc (e ▸ s.id_mem_ids)
    have hp : p ∉ s.ids := fun hp => hc (h.children_subset hp hmem).1
    constructor
    · rw [parent?, hnode, if_neg hc, Option.bind_map]
      exact hparent
    · rw [Document.children, hnode, if_neg hp]
      rw [Document.children] at hmem
      cases hread : d.node? p with
      | none => simp [hread] at hmem
      | some n =>
        rw [hread] at hmem
        by_cases hsp : parent = some p
        · simp only [Option.map_some, if_pos hsp, Option.getD_some]
          exact List.mem_filter.mpr ⟨by simpa using hmem, by simpa using hne⟩
        · simpa [hsp] using hmem

theorem under_remove_iff {parent : Option NodeId} {s : Shape} (h : d.Holds parent s)
    (hn : s.ids.Nodup) (hout : ∀ q, parent = some q → q ∉ s.ids) (hc : ¬ d.Under c s.id) :
    (d.remove s.id).Under c y ↔ d.Under c y := by
  constructor
  · intro hup
    exact Relation.ReflTransGen.mono (fun _ _ hlink => ((h.link_remove_iff hn hout).mp hlink).1)
      _ _ hup
  · intro hup
    induction hup using Relation.ReflTransGen.head_induction_on with
    | refl => exact .refl
    | head hlink _ ih =>
      exact .head ((h.link_remove_iff hn hout).mpr ⟨hlink, hc⟩) (ih fun hup => hc (.head hlink hup))

theorem Grown.link_removeAll_iff {d₀ : Document} {s : Shape} {ss : List Shape} {xs : List NodeId}
    (h : Grown d₀ d (s :: ss)) (hxs : ∀ x ∈ xs, x ≠ s.id ∧ (x ∈ s.ids ∨ d.node? x = none)) :
    (xs.foldl Document.remove d).Link c p ↔ d.Link c p ∧ ∀ x ∈ xs, ¬ d.Under c x := by
  induction xs generalizing d s with
  | nil => simp
  | cons x xs ih =>
    obtain ⟨hne, hx⟩ := hxs x List.mem_cons_self
    rw [List.foldl_cons, List.forall_mem_cons]
    rcases hx with hx | hdead
    · have hcut := h.cut hx hne
      obtain ⟨q, t, rfl, ht, -, hout, -, -, hnt⟩ :=
        h.head_holds.exists_subshape h.head_nodup hx hne
      have hapart : ∀ r, some q = some r → r ∉ t.ids := fun r e => (Option.some.inj e) ▸ hout
      rw [ih hcut fun y hy => h.part_cut hx hne (hxs y (List.mem_cons_of_mem _ hy)),
        ht.link_remove_iff hnt hapart, and_assoc]
      refine and_congr_right fun _ => and_congr_right fun hc => ?_
      exact forall₂_congr fun y _ => not_congr (under_remove_iff ht hnt hapart hc)
    · rw [remove_of_dead hdead, ih h fun y hy => hxs y (List.mem_cons_of_mem _ hy)]
      refine and_congr_right fun hlink => (and_iff_right fun hup => ?_).symm
      rcases Relation.ReflTransGen.cases_tail hup with rfl | ⟨w, -, hw⟩
      · obtain ⟨n, hn⟩ := hlink.live_child
        rw [hdead] at hn
        cases hn
      · obtain ⟨n, hn⟩ := hw.live_parent
        rw [hdead] at hn
        cases hn

/-- A node of the tree that is not in the part that is removed only loses the root of the part. -/
theorem Holds.node?_remove_part {parent : Option NodeId} {q : NodeId} {s t : Shape}
    (hs : d.Holds parent s) (ht : d.Holds (some q) t) (hn : t.ids.Nodup) (hq : q ∉ t.ids)
    (hy : y ∈ s.ids) (hyt : y ∉ t.ids) :
    (d.remove t.id).node? y = (d.node? y).map fun n =>
      { n with children := n.children.filter (· != t.id) } := by
  have hapart : ∀ r, some q = some r → r ∉ t.ids := fun r e => (Option.some.inj e) ▸ hq
  rw [ht.node?_remove hn hapart, if_neg hyt]
  cases hread : d.node? y with
  | none => rfl
  | some n =>
    rw [Option.map_some, Option.map_some]
    by_cases hqy : some q = some y
    · rw [if_pos hqy]
    · have hnot : ∀ k ∈ n.children, (k != t.id) = true := by
        intro k hk
        rw [bne_iff_ne]
        rintro rfl
        rw [← children_of_node? hread] at hk
        obtain ⟨-, m, hm, hparent⟩ := hs.children_subset hy hk
        rw [← parent?_of_node? hm, ht.parent?_eq] at hparent
        exact hqy hparent
      rw [if_neg hqy, List.filter_eq_self.mpr hnot]

theorem Holds.filter_dead {parent : Option NodeId} {s : Shape} (hs : d.Holds parent s) (hy : y ∈ s.ids)
    {n : Node} (hn : d.node? y = some n) (hdead : d.node? x = none) (xs : List NodeId) :
    n.children.filter (fun k => !(x :: xs).contains k) =
      n.children.filter fun k => !xs.contains k := by
  refine List.filter_congr fun k hk => ?_
  rw [← children_of_node? hn] at hk
  obtain ⟨-, m, hm, -⟩ := hs.children_subset hy hk
  have hkx : k ≠ x := by
    rintro rfl
    rw [hdead] at hm
    cases hm
  simp [hkx]

theorem Grown.node?_removeParts {d₀ : Document} {s : Shape} {ss : List Shape} {xs : List NodeId}
    (h : Grown d₀ d (s :: ss)) (hxs : ∀ x ∈ xs, x ≠ s.id ∧ (x ∈ s.ids ∨ d.node? x = none))
    (hy : y ∈ s.ids) (hstay : ∀ x ∈ xs, ¬ d.Under y x) :
    (xs.foldl Document.remove d).node? y = (d.node? y).map fun n =>
      { n with children := n.children.filter fun k => !xs.contains k } := by
  induction xs generalizing d s with
  | nil => cases hn : d.node? y <;> simp [hn]
  | cons x xs ih =>
    obtain ⟨hne, hx⟩ := hxs x List.mem_cons_self
    rw [List.foldl_cons]
    rcases hx with hx | hdead
    · obtain ⟨q, t, rfl, ht, -, hout, -, -, hnt⟩ :=
        h.head_holds.exists_subshape h.head_nodup hx hne
      have hapart : ∀ r, some q = some r → r ∉ t.ids := fun r e => (Option.some.inj e) ▸ hout
      have hyt : ¬ d.Under y t.id := hstay _ List.mem_cons_self
      have hfirst := h.head_holds.node?_remove_part ht hnt hout hy fun hmem =>
        hyt (ht.mem_ids_iff.mp hmem)
      have hmem : y ∈ (s.without (· == t.id)).ids := by
        rw [h.head_holds.mem_ids_without h.head_nodup hx hne, hfirst]
        obtain ⟨n, hn⟩ := h.head_holds.live y hy
        exact ⟨hy, _, by rw [hn, Option.map_some]⟩
      have hcut := h.cut hx hne
      rw [ih hcut (fun z hz => h.part_cut hx hne (hxs z (List.mem_cons_of_mem _ hz))) hmem, hfirst,
        Option.map_map]
      · congr 1
        funext n
        rw [Function.comp_apply, List.filter_filter]
        congr 2
        funext k
        rw [List.contains_cons, Bool.not_or, Bool.and_comm]
        rfl
      · intro z hz hup
        rw [under_remove_iff ht hnt hapart hyt] at hup
        exact hstay z (List.mem_cons_of_mem _ hz) hup
    · rw [remove_of_dead hdead, ih h (fun z hz => hxs z (List.mem_cons_of_mem _ hz)) hy
        fun z hz => hstay z (List.mem_cons_of_mem _ hz)]
      cases hn : d.node? y with
      | none => rfl
      | some n => rw [Option.map_some, Option.map_some, h.head_holds.filter_dead hy hn hdead]

section Attaching

variable {d₀ : Document} {s k : Shape} {cs ss : List Shape} {a : NodeId}

theorem Grown.node?_attachAll (h : Grown d₀ d (s :: (cs ++ ss))) (ha : a ∈ s.ids) (x : NodeId) :
    (cs.foldl (fun d c => d.append a c.id) d).node? x = (d.node? x).map fun n =>
      { label := n.label
        parent := if x ∈ cs.map Shape.id then some a else n.parent
        children := if x = a then n.children ++ cs.map Shape.id else n.children } := by
  induction cs generalizing d s with
  | nil =>
    cases hx : d.node? x <;> simp [hx]
  | cons k cs ih =>
    rw [List.foldl_cons, ih (h.attach ha).1 (Shape.mem_ids_extendAt.mpr (.inl ha)), h.node?_attach ha,
      Option.map_map]
    congr 1
    funext n
    simp only [Function.comp_apply, List.map_cons, List.mem_cons]
    congr 1
    · by_cases hk : x = k.id <;> simp [hk]
    · by_cases hx : x = a <;> simp [hx]

theorem Grown.link_attach_iff (h : Grown d₀ d (s :: k :: ss)) (ha : a ∈ s.ids) :
    (d.append a k.id).Link x p ↔ d.Link x p ∨ (x = k.id ∧ p = a) := by
  obtain ⟨n, m, hn, hm, hroot, hne⟩ := h.exists_attachable ha
  exact link_append_iff hn hm hroot hne

theorem Grown.link_attachAll_iff (h : Grown d₀ d (s :: (cs ++ ss))) (ha : a ∈ s.ids) :
    (cs.foldl (fun d c => d.append a c.id) d).Link x p ↔
      d.Link x p ∨ (x ∈ cs.map Shape.id ∧ p = a) := by
  induction cs generalizing d s with
  | nil => simp
  | cons k cs ih =>
    rw [List.foldl_cons, ih (h.attach ha).1 (Shape.mem_ids_extendAt.mpr (.inl ha)),
      h.link_attach_iff ha, List.map_cons, List.mem_cons, or_assoc, or_and_right]

end Attaching

theorem Grown.node?_removeAll {d₀ : Document} {cs ss : List Shape} (h : Grown d₀ d (cs ++ ss))
    (hx : x ∉ cs.flatMap Shape.ids) :
    (cs.foldl (fun d c => d.remove c.id) d).node? x = d.node? x := by
  induction cs generalizing d with
  | nil => rfl
  | cons c cs ih =>
    rw [List.flatMap_cons, List.mem_append, not_or] at hx
    have hnode := h.head_holds.node?_remove h.head_nodup (by simp) x
    rw [if_neg hx.1] at hnode
    rw [List.foldl_cons, ih h.remove hx.2, hnode]
    simp

end Document

end LiveMarkup
