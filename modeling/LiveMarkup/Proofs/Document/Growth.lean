import LiveMarkup.Proofs.Document.Forest
import LiveMarkup.Proofs.Document.Graft
import LiveMarkup.Proofs.Document.ShapeEdits

/-!
# Growth of a document

A document that grew some trees has them in slots that were empty, and is otherwise as it was.
Grafts, appends and removals take one growth to another one, so after any number of them it is
known which shapes are there and that nothing else has changed.
-/

namespace LiveMarkup

namespace Document

variable {d : Document} {parent : Option NodeId} {s c : Shape}

theorem Holds.unique {q : Option NodeId} {t : Shape} (hs : d.Holds parent s) (ht : d.Holds q t)
    (hid : s.id = t.id) : s = t := by
  induction hs generalizing q t with
  | @node parent id cs l read below ih =>
    obtain ⟨id', ks⟩ := t
    obtain rfl : id = id' := hid
    obtain ⟨l', read'⟩ := ht.read
    rw [Shape.id, read, Option.some.injEq, Node.mk.injEq] at read'
    have hids : cs.map Shape.id = ks.map Shape.id := read'.2.2
    have hlen : cs.length = ks.length := by simpa using congrArg List.length hids
    congr 1
    refine List.ext_getElem hlen fun k hk hk' => ?_
    have hmem : ks[k] ∈ ks := List.getElem_mem hk'
    refine ih cs[k] (List.getElem_mem hk) (ht.child hmem) ?_
    have hat := List.getElem_of_eq hids (i := k) (by simpa using hk)
    simpa using hat

theorem Holds.parent_mem (hs : d.Holds parent s) {x : NodeId} (hx : x ∈ s.ids) (hne : x ≠ s.id) :
    ∃ p ∈ s.ids, d.parent? x = some p := by
  induction hs with
  | @node parent id cs l read below ih =>
    rw [Shape.ids_node, List.mem_cons, List.mem_flatMap] at hx
    obtain ⟨c, hc, hx⟩ := hx.resolve_left hne
    by_cases hxc : x = c.id
    · subst hxc
      obtain ⟨l', hread⟩ := (below c hc).read
      exact ⟨id, Shape.id_mem_ids _, parent?_of_node? hread⟩
    · obtain ⟨p, hp, hparent⟩ := ih c hc hx hxc
      exact ⟨p, Shape.ids_subset_of_mem hc hp, hparent⟩

theorem Holds.exists_subshape (hs : d.Holds parent s) (hn : s.ids.Nodup) {x : NodeId}
    (hx : x ∈ s.ids) (hne : x ≠ s.id) :
    ∃ p c, c.id = x ∧ d.Holds (some p) c ∧ p ∈ s.ids ∧ p ∉ c.ids ∧ s.id ∉ c.ids ∧ c.ids ⊆ s.ids ∧
      c.ids.Nodup := by
  induction hs with
  | @node parent id cs l read below ih =>
    rw [Shape.ids_node, List.mem_cons, List.mem_flatMap] at hx
    obtain ⟨c, hc, hx⟩ := hx.resolve_left hne
    have hsub : c.ids ⊆ (Shape.node id cs).ids := Shape.ids_subset_of_mem hc
    have hnc := Shape.nodup_of_mem hn hc
    have hroot : id ∉ c.ids := fun h => Shape.ne_of_nodup hn hc h rfl
    by_cases hxc : x = c.id
    · exact ⟨id, c, hxc.symm, below c hc, Shape.id_mem_ids _, hroot, hroot, hsub, hnc⟩
    · obtain ⟨p, k, hk, hheld, hp, hout, -, hkc, hnk⟩ := ih c hc hnc hx hxc
      exact ⟨p, k, hk, hheld, hsub hp, hout, fun h => hroot (hkc h), fun y hy => hsub (hkc hy),
        hnk⟩

theorem Holds.append (hs : d.Holds parent s) (hc : d.Holds none c) (hn : c.ids.Nodup)
    (hdisj : ∀ x ∈ c.ids, x ∉ s.ids) {a : NodeId} (ha : a ∈ s.ids) :
    (d.append a c.id).Holds parent (s.extendAt a [c]) := by
  obtain ⟨na, hna⟩ := hs.live a ha
  obtain ⟨lc, hread⟩ := hc.read
  have hne : a ≠ c.id := fun e => hdisj c.id c.id_mem_ids (e ▸ ha)
  have hnode := node?_append hna hread rfl hne
  have hmoved : (d.append a c.id).Holds (some a) c := by
    have hroot : (d.append a c.id).node? c.id = some ⟨lc, some a, c.children.map Shape.id⟩ := by
      rw [hnode, hread, Option.map_some, if_pos rfl, if_neg (Ne.symm hne)]
    obtain ⟨id, ks⟩ := c
    refine hc.reparent hroot fun k (hk : k ∈ ks) x hx => ?_
    have hxa : x ≠ a := fun e => hdisj x (Shape.ids_subset_of_mem hk hx) (e ▸ ha)
    have hxid : x ≠ id := Shape.ne_of_nodup hn hk hx
    rw [links?, links?, hnode, Option.map_map]
    simp [Function.comp_def, hxa, hxid, Shape.id]
  clear ha
  induction hs with
  | @node parent id cs l read below ih =>
    have hid : id ≠ c.id := fun e => hdisj c.id c.id_mem_ids (e ▸ Shape.id_mem_ids (.node id cs))
    rw [Shape.extendAt, Shape.extendBy_node]
    refine .node (l := l) ?_ fun k hk => ?_
    · rw [hnode, read, Option.map_some, if_neg hid, List.map_append, List.map_map]
      by_cases hida : id = a
      · simp [hida, Function.comp_def]
      · simp [hida, Function.comp_def]
    · rcases List.mem_append.mp hk with hk | hk
      · obtain ⟨k', hk', rfl⟩ := List.mem_map.mp hk
        exact ih k' hk' fun x hx hmem => hdisj x hx (Shape.ids_subset_of_mem hk' hmem)
      · by_cases hida : id = a
        · subst hida
          rw [if_pos rfl, List.mem_singleton] at hk
          exact hk ▸ hmoved
        · simp [hida] at hk

theorem Holds.remove (hs : d.Holds parent s) (hn : s.ids.Nodup) {x : NodeId} (hx : x ∈ s.ids)
    (hne : x ≠ s.id) : (d.remove x).Holds parent (s.without (· == x)) := by
  obtain ⟨p, c, rfl, hc, -, hout, hroot, -, hnc⟩ := hs.exists_subshape hn hx hne
  have hnode := hc.node?_remove hnc fun q e => (Option.some.inj e) ▸ hout
  have hparent : d.parent? c.id = some p := by
    obtain ⟨l, hread⟩ := hc.read
    exact parent?_of_node? hread
  -- a node outside of `c` stays, and `c` is among its children only if it is the parent
  have hkeep : ∀ {par : Option NodeId} {t : Shape}, d.Holds par t → t.id ∉ c.ids →
      (d.remove c.id).Holds par (t.without (· == c.id)) := by
    intro par t ht
    induction ht with
    | @node par id cs l read below ih =>
      intro (hid : id ∉ c.ids)
      rw [Shape.without_node]
      refine .node (l := l) ?_ fun k hk => ?_
      · rw [hnode, if_neg hid, read, Option.map_some]
        congr 2
        rw [List.map_map]
        by_cases hpid : p = id
        · rw [if_pos (congrArg some hpid), List.filter_map]
          simp [Function.comp_def]
          rfl
        · rw [if_neg fun e => hpid (Option.some.inj e)]
          have hall : cs.filter (fun k => !(k.id == c.id)) = cs := by
            rw [List.filter_eq_self]
            intro k hk
            have hkc : k.id ≠ c.id := by
              intro e
              obtain ⟨l', hread'⟩ := (below k hk).read
              rw [← e, parent?_of_node? hread', Option.some.injEq] at hparent
              exact hpid hparent.symm
            simp [hkc]
          rw [hall]
          simp [Function.comp_def]
      · obtain ⟨k', hk', rfl⟩ := List.mem_map.mp hk
        rw [List.mem_filter] at hk'
        have hkc : k'.id ≠ c.id := by simpa using hk'.2
        refine ih k' hk'.1 fun hmem => hid ?_
        obtain ⟨q, hq, hparent'⟩ := hc.parent_mem hmem hkc
        obtain ⟨l', hread'⟩ := (below k' hk'.1).read
        rw [parent?_of_node? hread', Option.some.injEq] at hparent'
        exact hparent' ▸ hq
  exact hkeep hs hroot

theorem Holds.mem_ids_without (hs : d.Holds parent s) (hn : s.ids.Nodup) {x : NodeId}
    (hx : x ∈ s.ids) (hne : x ≠ s.id) (y : NodeId) :
    y ∈ (s.without (· == x)).ids ↔ y ∈ s.ids ∧ ∃ n, (d.remove x).node? y = some n := by
  obtain ⟨p, c, rfl, hc, -, hout, hroot, -, hnc⟩ := hs.exists_subshape hn hx hne
  have hnode := hc.node?_remove hnc fun q e => (Option.some.inj e) ▸ hout
  constructor
  · intro hy
    exact ⟨(Shape.ids_without_sublist _ s).subset hy, (hs.remove hn hx hne).live y hy⟩
  · rintro ⟨hy, n, hlive⟩
    have hyc : y ∉ c.ids := fun h => by
      rw [hnode, if_pos h] at hlive
      cases hlive
    clear hn hx hne hroot
    induction hs with
    | @node par id cs l read below ih =>
      rw [Shape.ids_node, List.mem_cons, List.mem_flatMap] at hy
      rw [Shape.without_node, Shape.ids_node, List.flatMap_map, List.mem_cons, List.mem_flatMap]
      refine hy.imp_right fun ⟨k, hk, hyk⟩ => ⟨k, List.mem_filter.mpr ⟨hk, ?_⟩, ih k hk hyk⟩
      have hkc : k.id ≠ c.id := fun e => hyc ((below k hk).unique hc e ▸ hyk)
      simpa using hkc

theorem remove_of_dead {x : NodeId} (h : d.node? x = none) : d.remove x = d := by
  rw [Document.remove, contains, h]
  rfl

theorem Holds.node?_remove_outside (hs : d.Holds parent s) (hn : s.ids.Nodup) {x y : NodeId}
    (hx : x ∈ s.ids) (hne : x ≠ s.id) (hy : y ∉ s.ids) : (d.remove x).node? y = d.node? y := by
  obtain ⟨p, c, rfl, hc, hp, hout, -, hsub, hnc⟩ := hs.exists_subshape hn hx hne
  have hpy : p ≠ y := fun e => hy (e ▸ hp)
  rw [hc.node?_remove hnc (fun q e => (Option.some.inj e) ▸ hout), if_neg fun h => hy (hsub h)]
  simp [hpy]

theorem Holds.label?_remove (hs : d.Holds parent s) (hn : s.ids.Nodup) {x y : NodeId}
    (hx : x ∈ s.ids) (hne : x ≠ s.id) (hy : y ∈ (s.without (· == x)).ids) :
    (d.remove x).label? y = d.label? y := by
  obtain ⟨-, n, hlive⟩ := (hs.mem_ids_without hn hx hne y).mp hy
  obtain ⟨p, c, rfl, hc, -, hout, -, -, hnc⟩ := hs.exists_subshape hn hx hne
  have hnode := hc.node?_remove hnc (fun q e => (Option.some.inj e) ▸ hout) y
  have hyc : y ∉ c.ids := fun h => by
    rw [hnode, if_pos h] at hlive
    cases hlive
  rw [label?, label?, hnode, if_neg hyc, Option.map_map]
  rfl

/-- The document `d` is `d₀` with more trees of the shapes `ss`. -/
structure Grown (d₀ d : Document) (ss : List Shape) : Prop where
  tidy : d.Tidy
  holds : ∀ s ∈ ss, d.Holds none s
  nodup : (ss.flatMap Shape.ids).Nodup
  fresh : ∀ x ∈ ss.flatMap Shape.ids, d₀.node? x = none
  frame : ∀ x ∉ ss.flatMap Shape.ids, d.node? x = d₀.node? x

namespace Grown

variable {d₀ d' : Document} {ss ss' : List Shape}

theorem refl (h : d.Tidy) : Grown d d [] where
  tidy := h
  holds := by simp
  nodup := by simp
  fresh := by simp
  frame _ _ := rfl

theorem head_holds (h : Grown d₀ d (s :: ss)) : d.Holds none s := h.holds s List.mem_cons_self

theorem head_nodup (h : Grown d₀ d (s :: ss)) : s.ids.Nodup := by
  have hn := h.nodup
  rw [List.flatMap_cons, List.nodup_append] at hn
  exact hn.1

theorem head_disjoint (h : Grown d₀ d (s :: ss)) : ∀ x ∈ s.ids, x ∉ ss.flatMap Shape.ids := by
  have hn := h.nodup
  rw [List.flatMap_cons, List.nodup_append] at hn
  exact fun x hx hx' => hn.2.2 x hx x hx' rfl

theorem perm (h : Grown d₀ d ss) (hp : ss.Perm ss') : Grown d₀ d ss' where
  tidy := h.tidy
  holds t ht := h.holds t (hp.mem_iff.mpr ht)
  nodup := ((hp.flatMap_right Shape.ids).nodup_iff).mp h.nodup
  fresh x hx := h.fresh x ((hp.flatMap_right Shape.ids).mem_iff.mpr hx)
  frame x hx := h.frame x fun hmem => hx ((hp.flatMap_right Shape.ids).mem_iff.mp hmem)

theorem not_mem_of_live (h : Grown d d' ss') {x : NodeId} {n : Node} (hx : d.node? x = some n) :
    x ∉ ss'.flatMap Shape.ids := fun hmem => by
  rw [h.fresh x hmem] at hx
  cases hx

theorem keeps (h : Grown d d' ss') {x : NodeId} {n : Node} (hx : d.node? x = some n) :
    d'.node? x = d.node? x := h.frame x (h.not_mem_of_live hx)

theorem append (h : Grown d₀ d ss) (h' : Grown d d' ss') : Grown d₀ d' (ss ++ ss') := by
  have hlater : ∀ x ∈ ss.flatMap Shape.ids, x ∉ ss'.flatMap Shape.ids := by
    intro x hx
    obtain ⟨t, ht, hx⟩ := List.mem_flatMap.mp hx
    obtain ⟨n, hn⟩ := (h.holds t ht).live x hx
    exact h'.not_mem_of_live hn
  refine ⟨h'.tidy, ?_, ?_, ?_, ?_⟩
  · intro t ht
    rcases List.mem_append.mp ht with ht | ht
    · exact (h.holds t ht).frame fun x hx => h'.frame x
        (hlater x (List.mem_flatMap.mpr ⟨t, ht, hx⟩))
    · exact h'.holds t ht
  · rw [List.flatMap_append, List.nodup_append]
    exact ⟨h.nodup, h'.nodup, fun x hx y hy e => hlater x hx (e ▸ hy)⟩
  · intro x hx
    rw [List.flatMap_append, List.mem_append] at hx
    by_cases hss : x ∈ ss.flatMap Shape.ids
    · exact h.fresh x hss
    · rw [← h.frame x hss]
      exact h'.fresh x (hx.resolve_left hss)
  · intro x hx
    rw [List.flatMap_append, List.mem_append, not_or] at hx
    rw [h'.frame x hx.2, h.frame x hx.1]

theorem remove (h : Grown d₀ d (s :: ss)) : Grown d₀ (d.remove s.id) ss := by
  have hnode := h.head_holds.node?_remove h.head_nodup (by simp)
  have hrest : ∀ x ∉ s.ids, (d.remove s.id).node? x = d.node? x := fun x hx => by
    rw [hnode, if_neg hx]
    simp
  have hout : ∀ t ∈ ss, ∀ x ∈ t.ids, x ∉ s.ids := fun t ht x hx hxs =>
    h.head_disjoint x hxs (List.mem_flatMap.mpr ⟨t, ht, hx⟩)
  refine ⟨h.tidy.remove _, fun t ht => ?_, ?_, fun x hx => ?_, fun x hx => ?_⟩
  · exact (h.holds t (List.mem_cons_of_mem _ ht)).frame fun x hx => hrest x (hout t ht x hx)
  · have hn := h.nodup
    rw [List.flatMap_cons, List.nodup_append] at hn
    exact hn.2.1
  · exact h.fresh x (by rw [List.flatMap_cons, List.mem_append]; exact .inr hx)
  · by_cases hxs : x ∈ s.ids
    · rw [hnode, if_pos hxs, h.fresh x (by rw [List.flatMap_cons, List.mem_append]; exact .inl hxs)]
    · rw [hrest x hxs]
      exact h.frame x (by rw [List.flatMap_cons, List.mem_append, not_or]; exact ⟨hxs, hx⟩)

theorem exists_attachable (h : Grown d₀ d (s :: c :: ss)) {a : NodeId} (ha : a ∈ s.ids) :
    ∃ n m, d.node? a = some n ∧ d.node? c.id = some m ∧ m.parent = none ∧ a ≠ c.id := by
  obtain ⟨n, hn⟩ := h.head_holds.live a ha
  obtain ⟨l, hread⟩ := (h.holds c (by simp)).read
  refine ⟨n, _, hn, hread, rfl, ?_⟩
  rintro rfl
  exact h.head_disjoint _ ha (List.mem_flatMap.mpr ⟨c, List.mem_cons_self, c.id_mem_ids⟩)

theorem node?_attach (h : Grown d₀ d (s :: c :: ss)) {a : NodeId} (ha : a ∈ s.ids) (x : NodeId) :
    (d.append a c.id).node? x = (d.node? x).map fun n =>
      { label := n.label
        parent := if x = c.id then some a else n.parent
        children := if x = a then n.children ++ [c.id] else n.children } := by
  obtain ⟨n, m, hn, hm, hroot, hne⟩ := h.exists_attachable ha
  exact node?_append hn hm hroot hne x

theorem attach (h : Grown d₀ d (s :: c :: ss)) {a : NodeId} (ha : a ∈ s.ids) :
    Grown d₀ (d.append a c.id) (s.extendAt a [c] :: ss) ∧
      ∀ x, (d.append a c.id).label? x = d.label? x := by
  have hc : d.Holds none c := h.holds c (by simp)
  have hdisj : ∀ x ∈ c.ids, x ∉ s.ids := fun x hx hxs =>
    h.head_disjoint x hxs (List.mem_flatMap.mpr ⟨c, List.mem_cons_self, hx⟩)
  have hnode := h.node?_attach ha
  have hids : ((s.extendAt a [c] :: ss).flatMap Shape.ids).Perm
      ((s :: c :: ss).flatMap Shape.ids) := by
    have hperm := Shape.ids_extendAt_perm [c] h.head_nodup ha
    rw [List.flatMap_cons, List.flatMap_cons, List.flatMap_cons, ← List.append_assoc]
    exact (hperm.trans (by simp)).append_right _
  have hcn : c.ids.Nodup := (h.perm (List.Perm.swap c s ss)).head_nodup
  have hrest : ∀ x, x ≠ a → x ≠ c.id → (d.append a c.id).node? x = d.node? x := by
    intro x hxa hxc
    rw [hnode]
    simp [hxa, hxc]
  refine ⟨⟨h.tidy.append a c.id, fun t ht => ?_, hids.nodup_iff.mpr h.nodup, fun x hx => ?_,
    fun x hx => ?_⟩, fun x => ?_⟩
  · rcases List.mem_cons.mp ht with rfl | ht'
    · exact h.head_holds.append hc hcn hdisj ha
    · refine (h.holds t (by simp [ht'])).frame fun x hx => hrest x ?_ ?_
      · rintro rfl
        exact h.head_disjoint x ha (List.mem_flatMap.mpr ⟨t, List.mem_cons_of_mem _ ht', hx⟩)
      · rintro rfl
        exact (h.perm (List.Perm.swap c s ss)).head_disjoint _ c.id_mem_ids
          (List.mem_flatMap.mpr ⟨t, List.mem_cons_of_mem _ ht', hx⟩)
  · exact h.fresh x (hids.mem_iff.mp hx)
  · have hx' : x ∉ (s :: c :: ss).flatMap Shape.ids := fun hmem => hx (hids.mem_iff.mpr hmem)
    rw [hrest x, h.frame x hx']
    · rintro rfl
      exact hx' (List.mem_flatMap.mpr ⟨s, by simp, ha⟩)
    · rintro rfl
      exact hx' (List.mem_flatMap.mpr ⟨c, by simp, c.id_mem_ids⟩)
  · rw [label?, label?, hnode, Option.map_map]
    rfl

theorem attachAll {cs : List Shape} (h : Grown d₀ d (s :: (cs ++ ss))) {a : NodeId}
    (ha : a ∈ s.ids) :
    Grown d₀ (cs.foldl (fun d c => d.append a c.id) d) (s.extendAt a cs :: ss) ∧
      ∀ x, (cs.foldl (fun d c => d.append a c.id) d).label? x = d.label? x := by
  induction cs generalizing d s with
  | nil =>
    have hnone : s.extendAt a [] = s := by
      have hsame : s.extendAt a [] = s.extendBy fun _ => [] :=
        Shape.extendBy_congr fun x _ => by simp
      rw [hsame, Shape.extendBy_nothing]
    exact ⟨hnone.symm ▸ h, fun _ => rfl⟩
  | cons c cs ih =>
    have hout : ∀ t ∈ [c], a ∉ t.ids := by
      rintro t ht hmem
      rw [List.mem_singleton] at ht
      subst ht
      exact h.head_disjoint a ha (List.mem_flatMap.mpr ⟨t, by simp, hmem⟩)
    obtain ⟨hone, hlabel⟩ := h.attach ha
    have ha' : a ∈ (s.extendAt a [c]).ids := Shape.mem_ids_extendAt.mpr (.inl ha)
    obtain ⟨hall, hlabels⟩ := ih hone ha'
    rw [Shape.extendAt_extendAt cs hout] at hall
    exact ⟨hall, fun x => (hlabels x).trans (hlabel x)⟩

theorem cut (h : Grown d₀ d (s :: ss)) {x : NodeId} (hx : x ∈ s.ids) (hne : x ≠ s.id) :
    Grown d₀ (d.remove x) (s.without (· == x) :: ss) := by
  have hsub := (Shape.ids_without_sublist (· == x) s)
  have hout : ∀ y ∉ s.ids, (d.remove x).node? y = d.node? y := fun y hy =>
    h.head_holds.node?_remove_outside h.head_nodup hx hne hy
  refine ⟨h.tidy.remove x, fun t ht => ?_, ?_, fun y hy => ?_, fun y hy => ?_⟩
  · rcases List.mem_cons.mp ht with rfl | ht
    · exact h.head_holds.remove h.head_nodup hx hne
    · exact (h.holds t (List.mem_cons_of_mem _ ht)).frame fun y hy => hout y fun hys =>
        h.head_disjoint y hys (List.mem_flatMap.mpr ⟨t, ht, hy⟩)
  · have hn := h.nodup
    rw [List.flatMap_cons] at hn ⊢
    exact (hsub.append_right _).nodup hn
  · refine h.fresh y ?_
    rw [List.flatMap_cons] at hy ⊢
    exact (hsub.append_right _).subset hy
  · rw [List.flatMap_cons, List.mem_append, not_or] at hy
    by_cases hys : y ∈ s.ids
    · have hgone : (d.remove x).node? y = none := by
        by_contra hlive
        exact hy.1 ((h.head_holds.mem_ids_without h.head_nodup hx hne y).mpr
          ⟨hys, Option.ne_none_iff_exists'.mp hlive⟩)
      rw [hgone, h.fresh y (by rw [List.flatMap_cons, List.mem_append]; exact .inl hys)]
    · rw [hout y hys]
      exact h.frame y (by rw [List.flatMap_cons, List.mem_append, not_or]; exact ⟨hys, hy.2⟩)

theorem part_cut (h : Grown d₀ d (s :: ss)) {x y : NodeId} (hx : x ∈ s.ids) (hne : x ≠ s.id)
    (hy : y ≠ s.id ∧ (y ∈ s.ids ∨ d.node? y = none)) :
    y ≠ (s.without (· == x)).id ∧
      (y ∈ (s.without (· == x)).ids ∨ (d.remove x).node? y = none) := by
  rw [Shape.id_without]
  refine ⟨hy.1, ?_⟩
  by_cases hys : y ∈ s.ids
  · rw [h.head_holds.mem_ids_without h.head_nodup hx hne y]
    cases (d.remove x).node? y with
    | none => exact .inr rfl
    | some n => exact .inl ⟨hys, n, rfl⟩
  · rw [h.head_holds.node?_remove_outside h.head_nodup hx hne hys]
    exact .inr (hy.2.resolve_left hys)

/-- Parts of a tree are removed one after another. Some may go with others. -/
theorem cutAll {xs : List NodeId} (h : Grown d₀ d (s :: ss))
    (hxs : ∀ x ∈ xs, x ≠ s.id ∧ (x ∈ s.ids ∨ d.node? x = none)) :
    Grown d₀ (xs.foldl Document.remove d) (s.without (xs.contains ·) :: ss) ∧
      ∀ y, y ∈ (s.without (xs.contains ·)).ids ∨ y ∉ s.ids →
        (xs.foldl Document.remove d).label? y = d.label? y := by
  induction xs generalizing d s with
  | nil =>
    have hnone : (s.without fun x => ([] : List NodeId).contains x) = s :=
      Shape.without_of_not_mem fun _ _ => rfl
    exact ⟨hnone.symm ▸ h, fun _ _ => rfl⟩
  | cons x xs ih =>
    obtain ⟨hne, hx⟩ := hxs x List.mem_cons_self
    have hboth : (s.without (· == x)).without (xs.contains ·) =
        s.without ((x :: xs).contains ·) := by
      rw [Shape.without_without]
      exact Shape.without_congr fun y _ => List.contains_cons.symm
    rcases hx with hx | hdead
    · have hcut := h.cut hx hne
      obtain ⟨hall, hlabels⟩ := ih hcut fun y hy =>
        h.part_cut hx hne (hxs y (List.mem_cons_of_mem _ hy))
      have hsub := (Shape.ids_without_sublist (· == x) s).subset
      rw [hboth] at hall hlabels
      refine ⟨hall, fun y hy => (hlabels y (hy.imp_right fun h hmem => h (hsub hmem))).trans ?_⟩
      rcases hy with hy | hy
      · refine h.head_holds.label?_remove h.head_nodup hx hne ?_
        rw [← hboth] at hy
        exact (Shape.ids_without_sublist _ _).subset hy
      · rw [label?, label?, h.head_holds.node?_remove_outside h.head_nodup hx hne hy]
    · have hout : x ∉ s.ids := fun hmem => by
        obtain ⟨n, hlive⟩ := h.head_holds.live x hmem
        rw [hdead] at hlive
        cases hlive
      have hsame : s.without ((x :: xs).contains ·) = s.without (xs.contains ·) :=
        Shape.without_congr fun y hy => by
          have hyx : y ≠ x := fun e => hout (e ▸ hy)
          simp [hyx]
      rw [List.foldl_cons, remove_of_dead hdead, hsame]
      exact ih h fun y hy => hxs y (List.mem_cons_of_mem _ hy)

theorem removeAll {cs : List Shape} (h : Grown d₀ d (cs ++ ss)) :
    Grown d₀ (cs.foldl (fun d c => d.remove c.id) d) ss := by
  induction cs generalizing d with
  | nil => exact h
  | cons c cs ih => exact ih h.remove

theorem relabel (h : Grown d₀ d ss) (tidy : d'.Tidy) (links : ∀ x, d'.links? x = d.links? x)
    (frame : ∀ x ∉ ss.flatMap Shape.ids, d'.node? x = d.node? x) : Grown d₀ d' ss where
  tidy := tidy
  holds t ht := (h.holds t ht).of_links fun x _ => links x
  nodup := h.nodup
  fresh := h.fresh
  frame x hx := (frame x hx).trans (h.frame x hx)

end Grown

theorem Copies.grown {d₀ : Document} {t : Tree} (h : Copies d₀ d s t) : Grown d₀ d [s] where
  tidy := h.tidy
  holds := by simpa using h.holds
  nodup := by simpa using h.nodup
  fresh := by simpa using h.fresh
  frame := by simpa using h.frame

theorem Tidy.grown_graftAll (h : d.Tidy) (ts : List Tree) :
    ∃ ss, Grown d (d.graftAll ts).1 ss ∧ ss.map Shape.id = (d.graftAll ts).2 ∧
      ss.map (d.graftAll ts).1.treeAt = ts := by
  induction ts generalizing d with
  | nil => exact ⟨[], .refl h, rfl, rfl⟩
  | cons t ts ih =>
    obtain ⟨s, hcopy, hid⟩ := h.graft t
    obtain ⟨ss, hgrown, hids, htrees⟩ := ih hcopy.tidy
    refine ⟨s :: ss, hcopy.grown.append hgrown, ?_, ?_⟩
    · rw [List.map_cons, hid, hids]
      rfl
    · have hkept : ((d.graft t).1.graftAll ts).1.treeAt s = (d.graft t).1.treeAt s := by
        refine treeAt_frame fun x hx => ?_
        obtain ⟨n, hn⟩ := hcopy.holds.live x hx
        exact hgrown.keeps hn
      exact congrArg₂ List.cons (hkept.trans hcopy.tree) htrees

end Document

end LiveMarkup
