import LiveMarkup.Proofs.Document.Shape

namespace LiveMarkup

theorem filterMap_of_forall₂ {α β : Type} {f : α → Option β} {xs : List α} {ys : List β}
    (h : List.Forall₂ (fun x y => f x = some y) xs ys) : xs.filterMap f = ys := by
  induction h with
  | nil => rfl
  | cons hxy _ ih => rw [List.filterMap_cons_some hxy, ih]

namespace Document

/-- The document `d'` is `d` with copies of the trees `ts` as the last children of `parent`. -/
structure Grafts (d d' : Document) (parent : Option NodeId) (ss : List Shape) (ts : List Tree) :
    Prop where
  tidy : d'.Tidy
  holds : ∀ s ∈ ss, d'.Holds parent s
  nodup : (ss.flatMap Shape.ids).Nodup
  fresh : ∀ x ∈ ss.flatMap Shape.ids, d.node? x = none
  trees : ss.map d'.treeAt = ts
  frame : ∀ x ∉ ss.flatMap Shape.ids, d'.node? x =
    if parent = some x then
      (d.node? x).map fun n => { n with children := n.children ++ ss.map Shape.id }
    else d.node? x

namespace Grafts

variable {d d₁ d₂ : Document} {p : NodeId} {ss ss' : List Shape} {ts ts' : List Tree}

theorem nil (h : d.Tidy) (parent : Option NodeId) : Grafts d d parent [] [] where
  tidy := h
  holds := by simp
  nodup := by simp
  fresh := by simp
  trees := rfl
  frame x _ := by
    split
    · simp
    · rfl

theorem not_mem_of_live {parent : Option NodeId} (h : Grafts d d₁ parent ss ts) {x : NodeId} {n : Node}
    (hx : d.node? x = some n) : x ∉ ss.flatMap Shape.ids := fun hmem => by
  rw [h.fresh x hmem] at hx
  cases hx

theorem live {parent : Option NodeId} (h : Grafts d d₁ parent ss ts) {x : NodeId} {n : Node}
    (hx : d.node? x = some n) : ∃ n', d₁.node? x = some n' := by
  rw [h.frame x (h.not_mem_of_live hx), hx]
  split
  · exact ⟨_, rfl⟩
  · exact ⟨_, rfl⟩

theorem append (h : Grafts d d₁ (some p) ss ts) (h' : Grafts d₁ d₂ (some p) ss' ts')
    (hp : ∃ n, d.node? p = some n) : Grafts d d₂ (some p) (ss ++ ss') (ts ++ ts') := by
  obtain ⟨n, hp⟩ := hp
  have hpfirst : p ∉ ss.flatMap Shape.ids := h.not_mem_of_live hp
  have hlater : ∀ s ∈ ss, ∀ x ∈ s.ids, x ∉ ss'.flatMap Shape.ids := fun s hs x hx hmem => by
    obtain ⟨m, hm⟩ := (h.holds s hs).live x hx
    exact h'.not_mem_of_live hm hmem
  have hkeep : ∀ s ∈ ss, ∀ x ∈ s.ids, d₂.node? x = d₁.node? x := fun s hs x hx => by
    rw [h'.frame x (hlater s hs x hx), if_neg]
    rintro ⟨rfl⟩
    exact hpfirst (List.mem_flatMap.mpr ⟨s, hs, hx⟩)
  refine ⟨h'.tidy, ?_, ?_, ?_, ?_, ?_⟩
  · intro s hs
    rcases List.mem_append.mp hs with hs | hs
    · exact (h.holds s hs).frame (hkeep s hs)
    · exact h'.holds s hs
  · rw [List.flatMap_append, List.nodup_append]
    refine ⟨h.nodup, h'.nodup, ?_⟩
    rintro x hx _ hx' rfl
    obtain ⟨s, hs, hx⟩ := List.mem_flatMap.mp hx
    exact hlater s hs x hx hx'
  · intro x hx
    rw [List.flatMap_append, List.mem_append] at hx
    by_cases hss : x ∈ ss.flatMap Shape.ids
    · exact h.fresh x hss
    · have hnone := h'.fresh x (hx.resolve_left hss)
      rw [h.frame x hss] at hnone
      split at hnone
      · simpa using hnone
      · exact hnone
  · rw [List.map_append, ← h.trees, ← h'.trees]
    congr 1
    exact List.map_congr_left fun s hs => treeAt_frame (hkeep s hs)
  · intro x hx
    rw [List.flatMap_append, List.mem_append, not_or] at hx
    rw [h'.frame x hx.2, h.frame x hx.1]
    by_cases hpx : p = x
    · simp [hpx, Option.map_map, Function.comp_def]
    · simp [hpx]

end Grafts

/-- A new node with no children yet, as the last child of `parent` if there is one. -/
def sprout (d : Document) (parent : Option NodeId) (l : Label) : Document :=
  match parent with
  | some p => (d.alloc ⟨l, parent, []⟩).1.modify p fun n =>
      { n with children := n.children ++ [(d.alloc ⟨l, parent, []⟩).2] }
  | none => (d.alloc ⟨l, parent, []⟩).1

theorem Tidy.sprout {d : Document} (h : d.Tidy) (parent : Option NodeId) (l : Label) :
    (d.sprout parent l).Tidy := by
  unfold Document.sprout
  split
  · exact (h.alloc _).modify _ _
  · exact h.alloc _

theorem Tidy.node?_sprout {d : Document} (h : d.Tidy) {parent : Option NodeId} {l : Label}
    (hp : ∀ p, parent = some p → ∃ n, d.node? p = some n) (x : NodeId) :
    (d.sprout parent l).node? x =
      if x = (d.alloc ⟨l, parent, []⟩).2 then some ⟨l, parent, []⟩
      else if parent = some x then
        (d.node? x).map fun n =>
          { n with children := n.children ++ [(d.alloc ⟨l, parent, []⟩).2] }
      else d.node? x := by
  cases parent with
  | none => simpa [Document.sprout] using h.node?_alloc ⟨l, none, []⟩ x
  | some p =>
    obtain ⟨n, hn⟩ := hp p rfl
    have hne : p ≠ (d.alloc ⟨l, some p, []⟩).2 := fun e => by
      rw [e, h.node?_snd_alloc] at hn
      cases hn
    rw [Document.sprout, node?_modify, h.node?_alloc, h.node?_alloc, if_neg hne]
    by_cases hx : x = p
    · subst hx
      simp [hne]
    · simp [hx, Ne.symm hx]

theorem graftBelow_node (d : Document) (parent : Option NodeId) (l : Label) (ts : List Tree) :
    graftBelow parent (.node l ts) d =
      (graftAllBelow (d.alloc ⟨l, parent, []⟩).2 ts (d.sprout parent l),
        (d.alloc ⟨l, parent, []⟩).2) := by
  rw [graftBelow]
  cases parent <;> rfl

mutual

theorem graftBelow_grafts (t : Tree) {d : Document} (h : d.Tidy) (parent : Option NodeId)
    (hp : ∀ p, parent = some p → ∃ n, d.node? p = some n) :
    ∃ s, Grafts d (graftBelow parent t d).1 parent [s] [t] ∧ s.id = (graftBelow parent t d).2 := by
  match t with
  | .node l ts =>
    have hsprout := graftBelow_node d parent l ts
    have hread := h.node?_sprout (l := l) hp
    have hnone := h.node?_snd_alloc ⟨l, parent, []⟩
    generalize (d.alloc ⟨l, parent, []⟩).2 = id at hsprout hread hnone
    rw [hsprout]
    have hid : (d.sprout parent l).node? id = some ⟨l, parent, []⟩ := by rw [hread, if_pos rfl]
    obtain ⟨cs, hcs⟩ := graftAllBelow_grafts ts (h.sprout parent l) ⟨_, hid⟩
    have hout : id ∉ cs.flatMap Shape.ids := hcs.not_mem_of_live hid
    have hroot : (graftAllBelow id ts (d.sprout parent l)).node? id =
        some ⟨l, parent, cs.map Shape.id⟩ := by
      rw [hcs.frame id hout, if_pos rfl, hid]
      rfl
    refine ⟨.node id cs, ⟨hcs.tidy, ?_, ?_, ?_, ?_, ?_⟩, rfl⟩
    · intro s hs
      rw [List.mem_singleton.mp hs]
      exact .node hroot hcs.holds
    · simpa [Shape.ids_node] using ⟨by simpa using hout, hcs.nodup⟩
    · intro x hx
      rw [List.flatMap_singleton, Shape.ids_node, List.mem_cons] at hx
      rcases hx with rfl | hx
      · exact hnone
      · have hfresh := hcs.fresh x hx
        have hne : x ≠ id := fun e => hout (e ▸ hx)
        rw [hread, if_neg hne] at hfresh
        split at hfresh
        · simpa using hfresh
        · exact hfresh
    · rw [List.map_singleton, treeAt_node, hcs.trees, labelAt, label?_of_node? hroot]
      rfl
    · intro x hx
      rw [List.flatMap_singleton, Shape.ids_node, List.mem_cons, not_or] at hx
      rw [hcs.frame x hx.2, if_neg (by simpa using Ne.symm hx.1), hread, if_neg hx.1]
      rfl

theorem graftAllBelow_grafts (ts : List Tree) {d : Document} (h : d.Tidy) {p : NodeId}
    (hp : ∃ n, d.node? p = some n) :
    ∃ ss, Grafts d (graftAllBelow p ts d) (some p) ss ts := by
  match ts with
  | [] => exact ⟨[], Grafts.nil h _⟩
  | t :: ts =>
    obtain ⟨s, hs, _⟩ := graftBelow_grafts t h (some p) (by rintro _ ⟨rfl⟩; exact hp)
    obtain ⟨n, hn⟩ := hp
    obtain ⟨ss, hss⟩ := graftAllBelow_grafts ts hs.tidy (hs.live hn)
    exact ⟨s :: ss, by simpa [graftAllBelow] using hs.append hss ⟨n, hn⟩⟩

end

structure Copies (d d' : Document) (s : Shape) (t : Tree) : Prop where
  tidy : d'.Tidy
  holds : d'.Holds none s
  nodup : s.ids.Nodup
  fresh : ∀ x ∈ s.ids, d.node? x = none
  tree : d'.treeAt s = t
  frame : ∀ x ∉ s.ids, d'.node? x = d.node? x

structure HoldsTree (d : Document) (s : Shape) (t : Tree) : Prop where
  tidy : d.Tidy
  holds : d.Holds none s
  nodup : s.ids.Nodup
  tree : d.treeAt s = t

theorem Copies.holdsTree {d d' : Document} {s : Shape} {t : Tree} (h : Copies d d' s t) :
    d'.HoldsTree s t := ⟨h.tidy, h.holds, h.nodup, h.tree⟩

theorem Tidy.graft {d : Document} (h : d.Tidy) (t : Tree) :
    ∃ s, Copies d (d.graft t).1 s t ∧ s.id = (d.graft t).2 := by
  obtain ⟨s, hs, hid⟩ := graftBelow_grafts t h none (by simp)
  refine ⟨s, ⟨hs.tidy, hs.holds s (by simp), ?_, ?_, ?_, ?_⟩, hid⟩
  · simpa using hs.nodup
  · simpa using hs.fresh
  · simpa [Document.graft] using hs.trees
  · simpa [Document.graft] using hs.frame

theorem Tidy.graftAll {d : Document} (h : d.Tidy) (ts : List Tree) :
    (∀ x n, d.node? x = some n → (d.graftAll ts).1.node? x = some n) ∧
      List.Forall₂ (fun id t => (d.graftAll ts).1.tree? id = some t) (d.graftAll ts).2 ts := by
  induction ts generalizing d with
  | nil => exact ⟨fun x n hx => hx, .nil⟩
  | cons t ts ih =>
    obtain ⟨s, hcopy, hid⟩ := h.graft t
    obtain ⟨hkept, hothers⟩ := ih hcopy.tidy
    refine ⟨fun x n hx => hkept x n ?_, .cons ?_ hothers⟩
    · have hout : x ∉ s.ids := fun hmem => by
        rw [hcopy.fresh x hmem] at hx
        cases hx
      rw [hcopy.frame x hout, hx]
    · have hsame : ∀ x ∈ s.ids, ((d.graft t).1.graftAll ts).1.node? x = (d.graft t).1.node? x := by
        intro x hx
        obtain ⟨n, hn⟩ := hcopy.holds.live x hx
        rw [hkept x n hn, hn]
      have htree := (hcopy.holds.frame hsame).tree? hcopy.nodup
      rwa [treeAt_frame hsame, hcopy.tree, hid] at htree

end Document

end LiveMarkup
