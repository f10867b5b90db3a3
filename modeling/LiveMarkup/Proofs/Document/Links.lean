import LiveMarkup.Proofs.Document.Shape

namespace LiveMarkup

namespace Document

variable {d : Document}

theorem node?_detach (d : Document) (id x : NodeId) :
    (d.detach id).node? x = (d.node? x).map fun n =>
      { label := n.label
        parent := if x = id then none else n.parent
        children :=
          if d.parent? id = some x then n.children.filter (· != id) else n.children } := by
  unfold detach
  split
  · rename_i hp
    cases hx : d.node? x with
    | none => rfl
    | some n =>
      obtain ⟨l, parent, children⟩ := n
      by_cases hid : x = id
      · subst hid
        obtain rfl : parent = none := by rw [parent?_of_node? hx] at hp; exact hp
        simp [hp]
      · simp [hp, hid]
  · rename_i p hp
    rw [node?_modify, node?_modify, node?_modify]
    by_cases hid : x = id
    · subst hid
      by_cases hxp : x = p
      · subst hxp
        simp [hp, Option.map_map, Function.comp_def]
      · have hpx : ¬ p = x := fun e => hxp e.symm
        simp [hp, hxp, hpx]
    · by_cases hxp : x = p
      · subst hxp
        simp [hp, hid]
      · have hpx : ¬ p = x := fun e => hxp e.symm
        cases hx : d.node? x <;> simp [hp, hid, hxp, hpx]

theorem Tidy.detach (h : d.Tidy) (id : NodeId) : (d.detach id).Tidy := by
  unfold Document.detach
  split
  · exact h
  · exact (h.modify _ _).modify _ _

theorem detach_of_parent?_eq_none {id : NodeId} (h : d.parent? id = none) : d.detach id = d := by
  rw [detach, h]

theorem node?_insertBefore {p c : NodeId} {n m : Node} (hp : d.node? p = some n)
    (hc : d.node? c = some m) (hroot : m.parent = none) (hne : p ≠ c) (before : Option NodeId)
    (x : NodeId) :
    (d.insertBefore p c before).node? x = (d.node? x).map fun n =>
      { label := n.label
        parent := if x = c then some p else n.parent
        children := if x = p then insertInto c before n.children else n.children } := by
  have hdetach : d.detach c = d :=
    detach_of_parent?_eq_none (by rw [parent?_of_node? hc, hroot])
  have hlive : (decide (p = c) || !d.contains p || !d.contains c) = false := by
    simp [hne, contains, hp, hc]
  rw [insertBefore, hlive, hdetach]
  simp only [Bool.false_eq_true, if_false, node?_modify]
  by_cases hxp : x = p
  · subst hxp
    simp [hne, hp]
  · by_cases hxc : x = c
    · subst hxc
      simp [hxp, hc]
    · cases hx : d.node? x <;> simp [hxp, hxc]

theorem Tidy.insertBefore (h : d.Tidy) (p c : NodeId) (before : Option NodeId) :
    (d.insertBefore p c before).Tidy := by
  unfold Document.insertBefore
  split
  · exact h
  · exact ((h.detach c).modify _ _).modify _ _

theorem insertInto_none (c : NodeId) (cs : List NodeId) : insertInto c none cs = cs ++ [c] := by
  simp [insertInto]

theorem node?_append {p c : NodeId} {n m : Node} (hp : d.node? p = some n) (hc : d.node? c = some m)
    (hroot : m.parent = none) (hne : p ≠ c) (x : NodeId) :
    (d.append p c).node? x = (d.node? x).map fun n =>
      { label := n.label
        parent := if x = c then some p else n.parent
        children := if x = p then n.children ++ [c] else n.children } := by
  rw [append, node?_insertBefore hp hc hroot hne]
  simp only [insertInto_none]

theorem Tidy.append (h : d.Tidy) (p c : NodeId) : (d.append p c).Tidy := h.insertBefore p c none

/-- The walk that frees a subtree visits the nodes of its shape. -/
theorem walk_reverse_children (steps : Nat) {ss : List Shape}
    (h : ∀ s ∈ ss, ∃ parent, d.Holds parent s) (hsteps : (ss.flatMap Shape.ids).length ≤ steps) :
    (walk (fun i => (d.children i).reverse) steps (ss.map Shape.id)).Perm
      (ss.flatMap Shape.ids) := by
  induction steps generalizing ss with
  | zero =>
    cases ss with
    | nil => exact .nil
    | cons s ss =>
      obtain ⟨id, cs⟩ := s
      simp [Shape.ids_node] at hsteps
  | succ steps ih =>
    cases ss with
    | nil => exact .nil
    | cons s ss =>
      obtain ⟨parent, hs⟩ := h s List.mem_cons_self
      obtain ⟨id, cs⟩ := s
      have hnext : ∀ s ∈ cs.reverse ++ ss, ∃ parent, d.Holds parent s := fun s hmem =>
        exists_holds_next h ((List.mem_append.mp hmem).imp_left List.mem_reverse.mp)
      have hperm : ((cs.reverse ++ ss).flatMap Shape.ids).Perm
          ((cs ++ ss).flatMap Shape.ids) :=
        (cs.reverse_perm.append_right ss).flatMap_right Shape.ids
      have hlen : ((cs.reverse ++ ss).flatMap Shape.ids).length ≤ steps := by
        rw [hperm.length_eq]
        simp only [List.flatMap_cons, Shape.ids_node, List.length_append, List.length_cons,
          List.flatMap_append] at hsteps ⊢
        omega
      have hrest := (ih hnext hlen).trans hperm
      rw [List.map_cons, walk, hs.children, ← List.map_reverse, ← List.map_append, Shape.children]
      simpa [Shape.ids_node, Shape.id] using hrest

theorem Holds.mem_freeingOrder {parent : Option NodeId} {s : Shape} (h : d.Holds parent s)
    (hn : s.ids.Nodup) {x : NodeId} : x ∈ d.freeingOrder s.id ↔ x ∈ s.ids := by
  have hheld : ∀ t ∈ [s], ∃ parent, d.Holds parent t := by simpa using ⟨parent, h⟩
  have hwalk := walk_reverse_children d.slots.size hheld (by simpa using h.length_ids_le hn)
  rw [freeingOrder]
  simpa using hwalk.mem_iff

theorem Holds.detach {parent : Option NodeId} {s : Shape} (h : d.Holds parent s)
    (hn : s.ids.Nodup) (hout : ∀ p, parent = some p → p ∉ s.ids) :
    (d.detach s.id).Holds none s := by
  obtain ⟨id, cs⟩ := s
  obtain ⟨l, read⟩ := h.read
  rw [Shape.id] at read
  have hp : d.parent? id = parent := parent?_of_node? read
  have hkeep : ∀ x ∈ (Shape.node id cs).ids, d.parent? id ≠ some x := fun x hx e =>
    hout x (hp ▸ e) hx
  refine h.reparent (l := l) ?_ ?_
  · rw [Shape.id, node?_detach, read, Option.map_some, if_pos rfl,
      if_neg (hkeep id (Shape.id_mem_ids _))]
  · intro c hc x hx
    have hne := Shape.ne_of_nodup hn hc hx
    have hnot := hkeep x (Shape.ids_subset_of_mem hc hx)
    rw [links?, links?, Shape.id, node?_detach, Option.map_map]
    congr 1
    funext n
    simp [hne, hnot]

theorem Holds.node?_remove {parent : Option NodeId} {s : Shape} (h : d.Holds parent s)
    (hn : s.ids.Nodup) (hout : ∀ p, parent = some p → p ∉ s.ids) (x : NodeId) :
    (d.remove s.id).node? x =
      if x ∈ s.ids then none
      else (d.node? x).map fun n =>
        { n with
          children := if parent = some x then n.children.filter (· != s.id) else n.children } := by
  have hp : d.parent? s.id = parent := by
    obtain ⟨l, read⟩ := h.read
    exact parent?_of_node? read
  rw [remove, if_pos h.contains, node?_foldl_release]
  simp only [(h.detach hn hout).mem_freeingOrder hn]
  by_cases hx : x ∈ s.ids
  · rw [if_pos hx, if_pos hx]
  · have hne : x ≠ s.id := fun e => hx (e ▸ s.id_mem_ids)
    rw [if_neg hx, if_neg hx, node?_detach, hp]
    congr 1
    funext n
    simp [hne]

theorem Tidy.remove (h : d.Tidy) (id : NodeId) : (d.remove id).Tidy := by
  unfold Document.remove
  split
  · exact (h.detach id).foldl_release _
  · exact h

end Document

end LiveMarkup
