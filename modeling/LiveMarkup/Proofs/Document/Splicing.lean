import LiveMarkup.Proofs.Document.Links

/-!
# Splices

A reshaping of a tree replaces children of a node by other nodes, one after another, while the rest of
the document stays as it is. Splices of neighbouring children compose to one.
-/

namespace LiveMarkup

namespace Document

variable {d d₁ d₂ d' : Document} {x id : NodeId} {bs rs : List NodeId} {cs ks cs' ks' : List Shape}
  {l l' : Label}

structure Relabels (d d' : Document) (id : NodeId) (l : Label) : Prop where
  tidy : d.Tidy → d'.Tidy
  node : ∀ y, d'.node? y =
    if y = id then (d.node? y).map fun n => { n with label := l } else d.node? y

namespace Relabels

theorem refl (h : d.label? id = some l) : Relabels d d id l where
  tidy hd := hd
  node y := by
    split
    · rename_i hy
      subst hy
      obtain ⟨n, hn, rfl⟩ := Option.map_eq_some_iff.mp h
      rw [hn]
      rfl
    · rfl

theorem trans (h : Relabels d d₁ id l) (h' : Relabels d₁ d₂ id l') : Relabels d d₂ id l' where
  tidy hd := h'.tidy (h.tidy hd)
  node y := by
    rw [h'.node, h.node]
    split
    · rw [Option.map_map]
      rfl
    · rfl

theorem links? (h : Relabels d d' id l) (y : NodeId) : d'.links? y = d.links? y := by
  rw [Document.links?, Document.links?, h.node]
  split
  · rw [Option.map_map]
    rfl
  · rfl

theorem label? (h : Relabels d d' id l) (hlive : d.contains id = true) : d'.label? id = some l := by
  obtain ⟨n, hn⟩ := contains_iff.mp hlive
  rw [Document.label?, h.node, if_pos rfl, hn]
  rfl

theorem node_of_ne (h : Relabels d d' id l) {y : NodeId} (hy : y ≠ id) : d'.node? y = d.node? y := by
  rw [h.node, if_neg hy]

theorem holds (h : Relabels d d' id l) {p : Option NodeId} {s : Shape} (hs : d.Holds p s) :
    d'.Holds p s :=
  hs.of_links fun y _ => h.links? y

theorem treeAt {s : Shape} {p : Option NodeId} {ts : List Tree} (h : Relabels d d' s.id l)
    (hs : d.Holds p s) (hn : s.ids.Nodup) (ht : d.treeAt s = .node l' ts) :
    d'.treeAt s = .node l ts := by
  have hlabel := h.label? hs.contains
  obtain ⟨i, cs⟩ := s
  rw [treeAt_node, Tree.node.injEq] at ht
  rw [treeAt_node, labelAt, ← ht.2]
  rw [Shape.id] at hlabel
  rw [hlabel]
  refine congrArg _ (List.map_congr_left fun c hc => treeAt_frame fun y hy => ?_)
  exact h.node_of_ne (Shape.ne_of_nodup hn hc hy)

end Relabels

theorem relabels_modifyLabel (f : Label → Label) (h : d.label? id = some l) :
    Relabels d (d.modifyLabel id f) id (f l) where
  tidy hd := hd.modify id _
  node y := by
    obtain ⟨n, hn, rfl⟩ := Option.map_eq_some_iff.mp h
    rw [modifyLabel, node?_modify]
    split
    · rename_i hy
      rw [hy, hn]
      rfl
    · rfl

/-! ### Children in a row -/

/-- The children of `x` are the nodes `bs`, then the shapes `cs`, then the nodes `rs`. -/
structure Siblings (d : Document) (x : NodeId) (bs : List NodeId) (cs : List Shape)
    (rs : List NodeId) : Prop where
  tidy : d.Tidy
  parent : ∃ l p, d.node? x = some ⟨l, p, bs ++ (cs.map Shape.id ++ rs)⟩
  holds : ∀ c ∈ cs, d.Holds (some x) c
  nodup : (cs.flatMap Shape.ids).Nodup
  outside : ∀ y ∈ x :: (bs ++ rs), y ∉ cs.flatMap Shape.ids

/-- The document `d'` is `d` with the shapes `cs'` in place of the children `cs` of `x`. Nodes of `cs`
may be among those of `cs'`, and slots of dead nodes may be taken. -/
structure Splices (d d' : Document) (x : NodeId) (bs : List NodeId) (cs : List Shape)
    (rs : List NodeId) (cs' : List Shape) : Prop where
  tidy : d'.Tidy
  parent : d'.node? x =
    (d.node? x).map fun n => { n with children := bs ++ (cs'.map Shape.id ++ rs) }
  holds : ∀ c ∈ cs', d'.Holds (some x) c
  nodup : (cs'.flatMap Shape.ids).Nodup
  fresh : ∀ y ∈ cs'.flatMap Shape.ids, y ∈ cs.flatMap Shape.ids ∨ d.node? y = none
  frame : ∀ y n, y ≠ x → y ∉ cs.flatMap Shape.ids → d.node? y = some n → d'.node? y = some n

namespace Siblings

theorem live (h : Siblings d x bs cs rs) {y : NodeId} (hy : y ∈ cs.flatMap Shape.ids) :
    ∃ n, d.node? y = some n := by
  obtain ⟨c, hc, hy⟩ := List.mem_flatMap.mp hy
  exact (h.holds c hc).live y hy

theorem left (h : Siblings d x bs (cs ++ ks) rs) : Siblings d x bs cs (ks.map Shape.id ++ rs) := by
  obtain ⟨l, p, hx⟩ := h.parent
  have hn := h.nodup
  rw [List.flatMap_append, List.nodup_append] at hn
  refine ⟨h.tidy, ⟨l, p, by rw [hx, List.map_append, List.append_assoc]⟩,
    fun c hc => h.holds c (List.mem_append_left _ hc), hn.1, fun y hy hmem => ?_⟩
  rw [← List.append_assoc] at hy
  simp only [List.mem_cons, List.mem_append] at hy
  have hall : y ∈ (cs ++ ks).flatMap Shape.ids := by
    rw [List.flatMap_append]
    exact List.mem_append_left _ hmem
  rcases hy with rfl | (hy | hy) | hy
  · exact h.outside _ List.mem_cons_self hall
  · exact h.outside y (by simp [hy]) hall
  · obtain ⟨k, hk, rfl⟩ := List.mem_map.mp hy
    exact hn.2.2 _ hmem _ (List.mem_flatMap.mpr ⟨k, hk, k.id_mem_ids⟩) rfl
  · exact h.outside y (by simp [hy]) hall

theorem inside {cs : List Shape} (h : Siblings d x bs [.node id cs] rs) :
    Siblings d id [] cs [] := by
  have hheld := h.holds _ List.mem_cons_self
  have hn := h.nodup
  rw [List.flatMap_singleton, Shape.ids_node, List.nodup_cons] at hn
  obtain ⟨l, hread⟩ := hheld.read
  exact ⟨h.tidy, ⟨l, some x, by simpa [Shape.id, Shape.children] using hread⟩,
    fun c hc => hheld.child hc, hn.2, by simpa using hn.1⟩

theorem relabel (h : Siblings d x bs cs rs) (hr : Relabels d d' id l) : Siblings d' x bs cs rs := by
  obtain ⟨lx, p, hx⟩ := h.parent
  refine ⟨hr.tidy h.tidy, ?_, fun c hc => hr.holds (h.holds c hc), h.nodup, h.outside⟩
  rw [hr.node, hx]
  split
  · exact ⟨l, p, rfl⟩
  · exact ⟨lx, p, rfl⟩

end Siblings

namespace Splices

theorem refl (h : Siblings d x bs cs rs) : Splices d d x bs cs rs cs where
  tidy := h.tidy
  parent := by
    obtain ⟨l, p, hx⟩ := h.parent
    rw [hx]
    rfl
  holds := h.holds
  nodup := h.nodup
  fresh y hy := .inl hy
  frame y n _ _ hy := hy

theorem live (h : Splices d d' x bs cs rs cs') {y : NodeId} (hy : y ∈ cs'.flatMap Shape.ids) :
    ∃ n, d'.node? y = some n := by
  obtain ⟨c, hc, hy⟩ := List.mem_flatMap.mp hy
  exact (h.holds c hc).live y hy

theorem keeps_right (h : Siblings d x bs (cs ++ ks) rs)
    (h₁ : Splices d d₁ x bs cs (ks.map Shape.id ++ rs) cs') :
    ∀ y ∈ ks.flatMap Shape.ids, d₁.node? y = d.node? y := by
  intro y hy
  have hmem : y ∈ (cs ++ ks).flatMap Shape.ids := by
    rw [List.flatMap_append]
    exact List.mem_append_right _ hy
  obtain ⟨n, hlive⟩ := h.live hmem
  have hn := h.nodup
  rw [List.flatMap_append, List.nodup_append] at hn
  rw [hlive]
  refine h₁.frame y n ?_ (fun hcs => hn.2.2 y hcs y hy rfl) hlive
  rintro rfl
  exact h.outside _ List.mem_cons_self hmem

theorem parent_not_mem (h : Siblings d x bs cs rs) (h₁ : Splices d d₁ x bs cs rs cs') :
    x ∉ cs'.flatMap Shape.ids := by
  intro hmem
  obtain ⟨l, p, hx⟩ := h.parent
  rcases h₁.fresh x hmem with hcs | hdead
  · exact h.outside _ List.mem_cons_self hcs
  · rw [hx] at hdead
    cases hdead

theorem disjoint_right (h : Siblings d x bs (cs ++ ks) rs)
    (h₁ : Splices d d₁ x bs cs (ks.map Shape.id ++ rs) cs') :
    ∀ y ∈ cs'.flatMap Shape.ids, y ∉ ks.flatMap Shape.ids := by
  intro y hy hks
  have hmem : y ∈ (cs ++ ks).flatMap Shape.ids := by
    rw [List.flatMap_append]
    exact List.mem_append_right _ hks
  obtain ⟨n, hlive⟩ := h.live hmem
  have hn := h.nodup
  rw [List.flatMap_append, List.nodup_append] at hn
  rcases h₁.fresh y hy with hcs | hdead
  · exact hn.2.2 y hcs y hks rfl
  · rw [hlive] at hdead
    cases hdead

theorem right (h : Siblings d x bs (cs ++ ks) rs)
    (h₁ : Splices d d₁ x bs cs (ks.map Shape.id ++ rs) cs') :
    Siblings d₁ x (bs ++ cs'.map Shape.id) ks rs := by
  obtain ⟨l, p, hx⟩ := h.parent
  have hn := h.nodup
  rw [List.flatMap_append, List.nodup_append] at hn
  have hkeep := keeps_right h h₁
  refine ⟨h₁.tidy, ⟨l, p, ?_⟩, fun k hk => ?_, hn.2.1, fun y hy hks => ?_⟩
  · rw [h₁.parent, hx, Option.map_some, List.append_assoc]
  · exact (h.holds k (List.mem_append_right _ hk)).frame fun y hy =>
      hkeep y (List.mem_flatMap.mpr ⟨k, hk, hy⟩)
  · have hall : y ∈ (cs ++ ks).flatMap Shape.ids := by
      rw [List.flatMap_append]
      exact List.mem_append_right _ hks
    simp only [List.mem_cons, List.mem_append] at hy
    rcases hy with rfl | (hy | hy) | hy
    · exact h.outside _ List.mem_cons_self hall
    · exact h.outside y (by simp [hy]) hall
    · obtain ⟨c, hc, rfl⟩ := List.mem_map.mp hy
      exact disjoint_right h h₁ _ (List.mem_flatMap.mpr ⟨c, hc, c.id_mem_ids⟩) hks
    · exact h.outside y (by simp [hy]) hall

theorem keeps_left (h : Siblings d x bs (cs ++ ks) rs)
    (h₁ : Splices d d₁ x bs cs (ks.map Shape.id ++ rs) cs')
    (h₂ : Splices d₁ d₂ x (bs ++ cs'.map Shape.id) ks rs ks') :
    ∀ y ∈ cs'.flatMap Shape.ids, d₂.node? y = d₁.node? y := by
  intro y hy
  obtain ⟨n, hn⟩ := h₁.live hy
  have hne : y ≠ x := fun e => parent_not_mem h.left h₁ (e ▸ hy)
  rw [hn, h₂.frame y n hne (disjoint_right h h₁ y hy) hn]

theorem append (h : Siblings d x bs (cs ++ ks) rs)
    (h₁ : Splices d d₁ x bs cs (ks.map Shape.id ++ rs) cs')
    (h₂ : Splices d₁ d₂ x (bs ++ cs'.map Shape.id) ks rs ks') :
    Splices d d₂ x bs (cs ++ ks) rs (cs' ++ ks') := by
  have hkeep := keeps_left h h₁ h₂
  refine ⟨h₂.tidy, ?_, fun c hc => ?_, ?_, fun y hy => ?_, fun y n hy hmem hlive => ?_⟩
  · rw [h₂.parent, h₁.parent, Option.map_map, List.map_append]
    simp only [Function.comp_def, List.append_assoc]
  · rcases List.mem_append.mp hc with hc | hc
    · exact (h₁.holds c hc).frame fun y hy => hkeep y (List.mem_flatMap.mpr ⟨c, hc, hy⟩)
    · exact h₂.holds c hc
  · rw [List.flatMap_append, List.nodup_append]
    refine ⟨h₁.nodup, h₂.nodup, ?_⟩
    rintro y hy _ hy' rfl
    obtain ⟨n, hn⟩ := h₁.live hy
    rcases h₂.fresh y hy' with hks | hdead
    · exact disjoint_right h h₁ y hy hks
    · rw [hn] at hdead
      cases hdead
  · rw [List.flatMap_append, List.mem_append] at hy ⊢
    rcases hy with hy | hy
    · exact (h₁.fresh y hy).imp_left .inl
    · rcases h₂.fresh y hy with hks | hdead
      · exact .inl (.inr hks)
      · -- A node that is dead after the first splice was dead before it or is one of `cs`.
        cases hlive : d.node? y with
        | none => exact .inr rfl
        | some n =>
          refine .inl (.inl (by_contra fun hcs => ?_))
          by_cases hyx : y = x
          · subst hyx
            rw [h₁.parent, hlive] at hdead
            cases hdead
          · rw [h₁.frame y n hyx hcs hlive] at hdead
            cases hdead
  · rw [List.flatMap_append, List.mem_append, not_or] at hmem
    exact h₂.frame y n hy hmem.2 (h₁.frame y n hy hmem.1 hlive)

theorem treeAt_left (h : Siblings d x bs (cs ++ ks) rs)
    (h₁ : Splices d d₁ x bs cs (ks.map Shape.id ++ rs) cs')
    (h₂ : Splices d₁ d₂ x (bs ++ cs'.map Shape.id) ks rs ks') :
    cs'.map d₂.treeAt = cs'.map d₁.treeAt :=
  List.map_congr_left fun c hc => treeAt_frame fun y hy =>
    keeps_left h h₁ h₂ y (List.mem_flatMap.mpr ⟨c, hc, hy⟩)

theorem treeAt_right (h : Siblings d x bs (cs ++ ks) rs)
    (h₁ : Splices d d₁ x bs cs (ks.map Shape.id ++ rs) cs') :
    ks.map d₁.treeAt = ks.map d.treeAt :=
  List.map_congr_left fun c hc => treeAt_frame fun y hy =>
    keeps_right h h₁ y (List.mem_flatMap.mpr ⟨c, hc, hy⟩)

/-- A new label of a node that is replaced does not matter. -/
theorem of_relabel (hx : x ∉ cs.flatMap Shape.ids) (hid : id ∈ cs.flatMap Shape.ids)
    (hr : Relabels d d₁ id l) (h : Splices d₁ d₂ x bs cs rs cs') : Splices d d₂ x bs cs rs cs' where
  tidy := h.tidy
  parent := by
    have hne : x ≠ id := fun e => hx (e ▸ hid)
    rw [h.parent, hr.node_of_ne hne]
  holds := h.holds
  nodup := h.nodup
  fresh y hy := by
    refine (h.fresh y hy).imp_right fun hdead => ?_
    rw [hr.node] at hdead
    split at hdead
    · simpa using hdead
    · exact hdead
  frame y n hy hmem hlive := by
    have hne : y ≠ id := fun e => hmem (e ▸ hid)
    exact h.frame y n hy hmem ((hr.node_of_ne hne).trans hlive)

/-- A splice of the children of a child is one of that child. -/
theorem outward {p : NodeId} (h : Siblings d x bs [.node p cs] rs) (h' : Splices d d' p [] cs [] cs') :
    Splices d d' x bs [.node p cs] rs [.node p cs'] := by
  have hheld := h.holds _ List.mem_cons_self
  have hout : x ∉ (Shape.node p cs).ids := by simpa using h.outside x List.mem_cons_self
  have hn := h.nodup
  rw [List.flatMap_singleton, Shape.ids_node, List.nodup_cons] at hn
  rw [Shape.ids_node, List.mem_cons, not_or] at hout
  obtain ⟨l, q, hx⟩ := h.parent
  obtain ⟨lp, hp⟩ := hheld.read
  rw [Shape.id] at hp
  have hp' : d'.node? p = some ⟨lp, some x, cs'.map Shape.id⟩ := by
    rw [h'.parent, hp]
    simp
  refine ⟨h'.tidy, ?_, fun c hc => ?_, ?_, fun y hy => ?_, fun y n hy hmem hlive => ?_⟩
  · rw [hx, h'.frame x _ hout.1 hout.2 hx]
    rfl
  · rw [List.mem_singleton.mp hc]
    exact .node hp' h'.holds
  · rw [List.flatMap_singleton, Shape.ids_node, List.nodup_cons]
    refine ⟨fun hmem => ?_, h'.nodup⟩
    rcases h'.fresh p hmem with hcs | hdead
    · exact hn.1 hcs
    · rw [hp] at hdead
      cases hdead
  · rw [List.flatMap_singleton, Shape.ids_node, List.mem_cons] at hy ⊢
    rcases hy with rfl | hy
    · exact .inl (.inl rfl)
    · exact (h'.fresh y hy).imp_left .inr
  · rw [List.flatMap_singleton, Shape.ids_node, List.mem_cons, not_or] at hmem
    exact h'.frame y n hmem.1 hmem.2 hlive

end Splices

/-! ### Nodes that go and nodes that come -/

theorem filter_ne_of_mem_middle {bs rs : List NodeId} {c : NodeId} (hb : c ∉ bs) (hr : c ∉ rs) :
    (bs ++ c :: rs).filter (· != c) = bs ++ rs := by
  rw [List.filter_append, List.filter_cons_of_neg (by simp), List.filter_eq_self.mpr fun b hb' => ?_,
    List.filter_eq_self.mpr fun r hr' => ?_]
  · simpa using fun e : r = c => hr (e ▸ hr')
  · simpa using fun e : b = c => hb (e ▸ hb')

theorem splices_remove {c : Shape} (h : Siblings d x bs [c] rs) :
    Splices d (d.remove c.id) x bs [c] rs [] := by
  have hheld := h.holds c List.mem_cons_self
  have hn : c.ids.Nodup := by simpa using h.nodup
  have hout : ∀ y ∈ x :: (bs ++ rs), y ∉ c.ids := by simpa using h.outside
  have hnode := hheld.node?_remove hn (by rintro p ⟨rfl⟩; exact hout _ List.mem_cons_self)
  obtain ⟨l, p, hx⟩ := h.parent
  have hmiddle : (bs ++ c.id :: rs).filter (· != c.id) = bs ++ rs :=
    filter_ne_of_mem_middle (fun hb => hout c.id (by simp [hb]) c.id_mem_ids)
      (fun hr => hout c.id (by simp [hr]) c.id_mem_ids)
  refine ⟨h.tidy.remove _, ?_, by simp, by simp, by simp, fun y n hy hmem hlive => ?_⟩
  · rw [hnode, if_neg (hout x List.mem_cons_self), hx]
    simp [hmiddle]
  · rw [hnode, if_neg (by simpa using hmem), hlive]
    simp [Ne.symm hy]

theorem insertInto_before {bs rs : List NodeId} {new next : NodeId} (hb : next ∉ bs) :
    insertInto new (some next) (bs ++ next :: rs) = bs ++ new :: next :: rs := by
  have hall : ∀ b ∈ bs, (b != next) = true := fun b hmem => by
    simpa using fun e : b = next => hb (e ▸ hmem)
  rw [insertInto, List.takeWhile_append_of_pos hall, List.dropWhile_append_of_pos hall]
  simp

/-- A new node without children, put before a child of `x`. -/
theorem splices_insertBefore {next : NodeId} (h : Siblings d x bs [] (next :: rs)) (hb : next ∉ bs)
    (l : Label) :
    Splices d ((d.create l).1.insertBefore x (d.create l).2 (some next)) x bs [] (next :: rs)
        [.node (d.create l).2 []] ∧
      ((d.create l).1.insertBefore x (d.create l).2 (some next)).label? (d.create l).2 = some l := by
  obtain ⟨lx, p, hx⟩ := h.parent
  rw [List.map_nil, List.nil_append] at hx
  have hread := h.tidy.node?_alloc ⟨l, none, []⟩
  have hdead := h.tidy.node?_snd_alloc ⟨l, none, []⟩
  have htidy := h.tidy.alloc ⟨l, none, []⟩
  rw [create]
  generalize (d.alloc ⟨l, none, []⟩).1 = e at hread htidy ⊢
  generalize (d.alloc ⟨l, none, []⟩).2 = new at hread hdead ⊢
  have hout : ∀ {y n}, d.node? y = some n → y ≠ new := by
    rintro y n hy rfl
    rw [hdead] at hy
    cases hy
  have hnew : e.node? new = some ⟨l, none, []⟩ := by rw [hread, if_pos rfl]
  have hparent : e.node? x = some ⟨lx, p, bs ++ next :: rs⟩ := by rw [hread, if_neg (hout hx), hx]
  have hnode := node?_insertBefore hparent hnew rfl (hout hx) (some next)
  have hplaced : (e.insertBefore x new (some next)).node? new = some ⟨l, some x, []⟩ := by
    rw [hnode, hnew, Option.map_some, if_pos rfl, if_neg (hout hx).symm]
  refine ⟨⟨htidy.insertBefore _ _ _, ?_, fun c hc => ?_, by simp [Shape.ids_node],
    fun y hy => .inr ?_, fun y n hy _ hlive => ?_⟩, Document.label?_of_node? hplaced⟩
  · rw [hnode, hparent, hx, Option.map_some, Option.map_some, if_neg (hout hx), if_pos rfl,
      insertInto_before hb]
    rfl
  · rw [List.mem_singleton.mp hc]
    exact .node hplaced (by simp)
  · rw [List.flatMap_singleton, Shape.ids_node, List.flatMap_nil, List.mem_singleton] at hy
    rw [hy, hdead]
  · rw [hnode, hread, if_neg (hout hlive), hlive, Option.map_some, if_neg (hout hlive), if_neg hy]

end Document

end LiveMarkup
