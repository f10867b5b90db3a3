import LiveMarkup.Proofs.Document.Links

namespace LiveMarkup

namespace Shape

mutual

/-- The shape with more children behind those of each node. -/
def extendBy (more : NodeId → List Shape) : Shape → Shape
  | node id cs => node id (extendAllBy more cs ++ more id)

def extendAllBy (more : NodeId → List Shape) : List Shape → List Shape
  | [] => []
  | c :: cs => extendBy more c :: extendAllBy more cs

end

def extendAt (a : NodeId) (new : List Shape) (s : Shape) : Shape :=
  s.extendBy fun x => if x = a then new else []

mutual

/-- The shape without the subtrees whose roots are picked. The root of the whole stays. -/
def without (p : NodeId → Bool) : Shape → Shape
  | node id cs => node id (withoutAll p cs)

def withoutAll (p : NodeId → Bool) : List Shape → List Shape
  | [] => []
  | c :: cs => if p c.id then withoutAll p cs else without p c :: withoutAll p cs

end

theorem extendAllBy_eq (more : NodeId → List Shape) (cs : List Shape) :
    extendAllBy more cs = cs.map (extendBy more) := by
  induction cs with
  | nil => rfl
  | cons c cs ih => rw [extendAllBy, ih, List.map_cons]

theorem extendBy_node (more : NodeId → List Shape) (id : NodeId) (cs : List Shape) :
    (node id cs).extendBy more = node id (cs.map (extendBy more) ++ more id) := by
  rw [extendBy, extendAllBy_eq]

theorem withoutAll_eq (p : NodeId → Bool) (cs : List Shape) :
    withoutAll p cs = (cs.filter fun c => !p c.id).map (without p) := by
  induction cs with
  | nil => rfl
  | cons c cs ih =>
    rw [withoutAll, ih]
    by_cases hc : p c.id = true <;> simp [hc]

theorem without_node (p : NodeId → Bool) (id : NodeId) (cs : List Shape) :
    (node id cs).without p = node id ((cs.filter fun c => !p c.id).map (without p)) := by
  rw [without, withoutAll_eq]

@[simp] theorem id_extendBy (more : NodeId → List Shape) (s : Shape) :
    (s.extendBy more).id = s.id := by
  obtain ⟨id, cs⟩ := s
  rw [extendBy_node]
  rfl

@[simp] theorem id_without (p : NodeId → Bool) (s : Shape) : (s.without p).id = s.id := by
  obtain ⟨id, cs⟩ := s
  rw [without_node]
  rfl

theorem extendBy_congr {more more' : NodeId → List Shape} {s : Shape}
    (h : ∀ x ∈ s.ids, more x = more' x) : s.extendBy more = s.extendBy more' := by
  induction s with
  | node id cs ih =>
    rw [extendBy_node, extendBy_node, h id (id_mem_ids _)]
    congr 2
    exact List.map_congr_left fun c hc => ih c hc fun x hx => h x (ids_subset_of_mem hc hx)

theorem extendBy_nothing (s : Shape) : (s.extendBy fun _ => []) = s := by
  induction s with
  | node id cs ih =>
    rw [extendBy_node, List.append_nil]
    congr 1
    simpa using List.map_congr_left ih

theorem extendAt_of_not_mem {a : NodeId} {s : Shape} (new : List Shape) (h : a ∉ s.ids) :
    s.extendAt a new = s := by
  have hnone : s.extendAt a new = s.extendBy fun _ => [] :=
    extendBy_congr fun x hx => if_neg fun e : x = a => h (e ▸ hx)
  rw [hnone, extendBy_nothing]

theorem mem_ids_extendBy {more : NodeId → List Shape} {s : Shape} {x : NodeId} :
    x ∈ (s.extendBy more).ids ↔ x ∈ s.ids ∨ ∃ a ∈ s.ids, x ∈ (more a).flatMap ids := by
  induction s with
  | node id cs ih =>
    have hsplit : x ∈ ((node id cs).extendBy more).ids ↔
        x = id ∨ (∃ c ∈ cs, x ∈ (c.extendBy more).ids) ∨ x ∈ (more id).flatMap ids := by
      rw [extendBy_node, ids_node, List.flatMap_append, List.mem_cons, List.mem_append,
        List.flatMap_map, List.mem_flatMap]
    rw [hsplit, ids_node]
    simp only [List.mem_cons (l := cs.flatMap ids), List.mem_flatMap (l := cs)]
    constructor
    · rintro (rfl | ⟨c, hc, hx⟩ | hx)
      · exact .inl (.inl rfl)
      · rcases (ih c hc).mp hx with hx | ⟨a, ha, hx⟩
        · exact .inl (.inr ⟨c, hc, hx⟩)
        · exact .inr ⟨a, .inr ⟨c, hc, ha⟩, hx⟩
      · exact .inr ⟨id, .inl rfl, hx⟩
    · rintro ((rfl | ⟨c, hc, hx⟩) | ⟨a, ha, hx⟩)
      · exact .inl rfl
      · exact .inr (.inl ⟨c, hc, (ih c hc).mpr (.inl hx)⟩)
      · rcases ha with rfl | ⟨c, hc, ha⟩
        · exact .inr (.inr hx)
        · exact .inr (.inl ⟨c, hc, (ih c hc).mpr (.inr ⟨a, ha, hx⟩)⟩)

theorem mem_ids_extendAt {a x : NodeId} {ts : List Shape} {s : Shape} :
    x ∈ (s.extendAt a ts).ids ↔ x ∈ s.ids ∨ a ∈ s.ids ∧ x ∈ ts.flatMap ids := by
  rw [extendAt, mem_ids_extendBy]
  refine or_congr_right ⟨?_, fun ⟨ha, hx⟩ => ⟨a, ha, by rwa [if_pos rfl]⟩⟩
  rintro ⟨b, hb, hx⟩
  by_cases hba : b = a
  · rw [if_pos hba] at hx
    exact ⟨hba ▸ hb, hx⟩
  · rw [if_neg hba] at hx
    cases hx

theorem extendAt_extendBy {more : NodeId → List Shape} {s : Shape} {a : NodeId} (new : List Shape)
    (h : ∀ x ∈ s.ids, ∀ c ∈ more x, a ∉ c.ids) :
    (s.extendBy more).extendAt a new =
      s.extendBy fun x => more x ++ if x = a then new else [] := by
  induction s with
  | node id cs ih =>
    rw [extendBy_node, extendAt, extendBy_node, extendBy_node, List.map_append, List.map_map,
      List.append_assoc]
    congr 2
    · exact List.map_congr_left fun c hc =>
        ih c hc fun x hx => h x (ids_subset_of_mem hc hx)
    · congr 1
      have hkeep := List.map_congr_left fun c hc =>
        extendAt_of_not_mem new (h id (id_mem_ids _) c hc)
      simpa [extendAt] using hkeep

theorem extendAt_extendAt {s : Shape} {a : NodeId} {cs : List Shape} (new : List Shape)
    (h : ∀ c ∈ cs, a ∉ c.ids) : (s.extendAt a cs).extendAt a new = s.extendAt a (cs ++ new) := by
  have hout : ∀ x ∈ s.ids, ∀ c ∈ (if x = a then cs else []), a ∉ c.ids := by
    intro x _ c hc
    by_cases hx : x = a
    · exact h c (by simpa [hx] using hc)
    · simp [hx] at hc
  have hboth := extendAt_extendBy new hout
  rw [extendAt.eq_1 a cs, hboth, extendAt]
  congr 1
  funext x
  by_cases hx : x = a <;> simp [hx]

theorem ids_extendBy_perm (more : NodeId → List Shape) (s : Shape) :
    (s.extendBy more).ids.Perm (s.ids ++ (s.ids.flatMap more).flatMap ids) := by
  induction s with
  | node id cs ih =>
    have hbelow : (cs.flatMap fun c => (c.extendBy more).ids).Perm
        (cs.flatMap ids ++ ((cs.flatMap ids).flatMap more).flatMap ids) := by
      clear id
      induction cs with
      | nil => exact List.Perm.refl _
      | cons c cs ihcs =>
        have hfirst := ih c List.mem_cons_self
        have hrest := ihcs fun k hk => ih k (List.mem_cons_of_mem _ hk)
        simp only [List.flatMap_cons, List.flatMap_append]
        refine (hfirst.append hrest).trans ?_
        rw [List.append_assoc, List.append_assoc]
        refine List.Perm.append_left _ ?_
        rw [← List.append_assoc, ← List.append_assoc]
        exact List.Perm.append_right _ List.perm_append_comm
    rw [extendBy_node, ids_node, ids_node, List.flatMap_append, List.flatMap_map, List.cons_append]
    refine List.Perm.cons _ ?_
    rw [List.flatMap_cons, List.flatMap_append]
    refine (hbelow.append_right _).trans ?_
    rw [List.append_assoc]
    exact List.Perm.append_left _ List.perm_append_comm

theorem ids_extendAt_perm {a : NodeId} {s : Shape} (new : List Shape) (hn : s.ids.Nodup)
    (ha : a ∈ s.ids) : (s.extendAt a new).ids.Perm (s.ids ++ new.flatMap ids) := by
  have hone : (s.ids.flatMap fun x => if x = a then new else []) = new := by
    obtain ⟨before, after, hids⟩ := List.append_of_mem ha
    rw [hids, List.nodup_append, List.nodup_cons] at hn
    have hbefore : (before.flatMap fun x => if x = a then new else []) = [] := by
      rw [List.flatMap_eq_nil_iff]
      exact fun x hx => if_neg (hn.2.2 x hx a List.mem_cons_self)
    have hafter : (after.flatMap fun x => if x = a then new else []) = [] := by
      rw [List.flatMap_eq_nil_iff]
      exact fun x hx => if_neg fun e : x = a => hn.2.1.1 (e ▸ hx)
    rw [hids, List.flatMap_append, List.flatMap_cons, hbefore, hafter, if_pos rfl,
      List.nil_append, List.append_nil]
  have hperm := ids_extendBy_perm (fun x => if x = a then new else []) s
  rwa [hone] at hperm

theorem eq_of_mem_ids {ss : List Shape} (hn : (ss.flatMap ids).Nodup) {s t : Shape} (hs : s ∈ ss)
    (ht : t ∈ ss) {x : NodeId} (hxs : x ∈ s.ids) (hxt : x ∈ t.ids) : s = t := by
  induction ss with
  | nil => cases hs
  | cons r ss ih =>
    rw [List.flatMap_cons, List.nodup_append] at hn
    rcases List.mem_cons.mp hs with rfl | hs'
    · rcases List.mem_cons.mp ht with rfl | ht'
      · rfl
      · exact absurd rfl (hn.2.2 x hxs x (List.mem_flatMap.mpr ⟨t, ht', hxt⟩))
    · rcases List.mem_cons.mp ht with rfl | ht'
      · exact absurd rfl (hn.2.2 x hxt x (List.mem_flatMap.mpr ⟨s, hs', hxs⟩))
      · exact ih hn.2.1 hs' ht'

theorem without_congr {p q : NodeId → Bool} {s : Shape} (h : ∀ x ∈ s.ids, p x = q x) :
    s.without p = s.without q := by
  induction s with
  | node id cs ih =>
    rw [without_node, without_node]
    congr 1
    have hfilter : (cs.filter fun c => !p c.id) = cs.filter fun c => !q c.id :=
      List.filter_congr fun c hc => by rw [h _ (ids_subset_of_mem hc c.id_mem_ids)]
    rw [hfilter]
    exact List.map_congr_left fun c hc =>
      ih c (List.mem_of_mem_filter hc) fun x hx =>
        h x (ids_subset_of_mem (List.mem_of_mem_filter hc) hx)

theorem without_nothing (s : Shape) : (s.without fun _ => false) = s := by
  induction s with
  | node id cs ih =>
    rw [without_node]
    congr 1
    simpa using List.map_congr_left ih

theorem without_of_not_mem {p : NodeId → Bool} {s : Shape} (h : ∀ x ∈ s.ids, p x = false) :
    s.without p = s := by
  rw [without_congr h, without_nothing]

theorem without_without (p q : NodeId → Bool) (s : Shape) :
    (s.without p).without q = s.without fun x => p x || q x := by
  induction s with
  | node id cs ih =>
    rw [without_node, without_node, without_node, List.filter_map, List.map_map,
      List.filter_filter]
    congr 1
    have hfilter : (cs.filter fun c => ((fun c => !q c.id) ∘ without p) c && !p c.id) =
        cs.filter fun c => !(p c.id || q c.id) :=
      List.filter_congr fun c _ => by
        rw [Function.comp_apply, id_without, Bool.not_or, Bool.and_comm]
    rw [hfilter]
    exact List.map_congr_left fun c hc => ih c (List.mem_of_mem_filter hc)

theorem without_extendBy {more : NodeId → List Shape} {p : NodeId → Bool} {s : Shape}
    (base : ∀ x ∈ s.ids, p x = false)
    (inner : ∀ x ∈ s.ids, ∀ c ∈ more x, p c.id = false → ∀ y ∈ c.ids, p y = false) :
    (s.extendBy more).without p = s.extendBy fun x => (more x).filter fun c => !p c.id := by
  induction s with
  | node id cs ih =>
    have hkeep : (cs.map (extendBy more)).filter (fun c => !p c.id) = cs.map (extendBy more) := by
      rw [List.filter_eq_self]
      intro c hc
      obtain ⟨k, hk, rfl⟩ := List.mem_map.mp hc
      rw [id_extendBy, base _ (ids_subset_of_mem hk k.id_mem_ids)]
      rfl
    rw [extendBy_node, without_node, extendBy_node, List.filter_append, hkeep, List.map_append,
      List.map_map]
    congr 2
    · refine List.map_congr_left fun c hc => ih c hc (fun x hx => ?_) fun x hx => ?_
      · exact base x (ids_subset_of_mem hc hx)
      · exact inner x (ids_subset_of_mem hc hx)
    · have hsame : ∀ c ∈ (more id).filter (fun c => !p c.id), without p c = c := by
        intro c hc
        rw [List.mem_filter, Bool.not_eq_true'] at hc
        exact without_of_not_mem (inner id (id_mem_ids _) c hc.1 hc.2)
      exact (List.map_congr_left hsame).trans (List.map_id' _)

theorem ids_without_sublist (p : NodeId → Bool) (s : Shape) :
    (s.without p).ids.Sublist s.ids := by
  induction s with
  | node id cs ih =>
    rw [without_node, ids_node, ids_node, List.flatMap_map]
    refine List.Sublist.cons_cons _ ?_
    clear id
    induction cs with
    | nil => exact .slnil
    | cons c cs ihcs =>
      have hrest := ihcs fun k hk => ih k (List.mem_cons_of_mem _ hk)
      rw [List.flatMap_cons]
      by_cases hc : p c.id = true
      · rw [List.filter_cons_of_neg (by simp [hc])]
        exact hrest.trans (List.sublist_append_right _ _)
      · rw [List.filter_cons_of_pos (by simp [hc]), List.flatMap_cons]
        exact (ih c List.mem_cons_self).append hrest

end Shape

end LiveMarkup
