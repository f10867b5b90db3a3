import LiveMarkup.Proofs.Document.Copying

/-!
# Freeing subtrees

To remove a node frees its slot and those of the nodes below it, and nothing else but its parent's
child list changes. Each of these slots gets onto the free list once, in front of those that were free
before, so the next nodes take just these slots again.
-/

namespace LiveMarkup

namespace Document

variable {d : Document} {q : Option NodeId} {s : Shape}

/-- New nodes, one after another. -/
def allocAll (d : Document) : List Node → Document × List NodeId
  | [] => (d, [])
  | n :: ns =>
    let (d, id) := d.alloc n
    let (d, ids) := d.allocAll ns
    (d, id :: ids)

theorem allocAll_of_free {ids rest : List NodeId} {ns : List Node} (h : d.free = ids ++ rest)
    (hlen : ns.length = ids.length) :
    (d.allocAll ns).2 = ids ∧ (d.allocAll ns).1.free = rest ∧
      (d.allocAll ns).1.slots.size = d.slots.size := by
  induction ns generalizing d ids with
  | nil =>
    obtain rfl := List.length_eq_zero_iff.mp hlen.symm
    exact ⟨rfl, h, rfl⟩
  | cons n ns ih =>
    obtain ⟨id, ids, rfl⟩ := List.exists_cons_of_length_eq_add_one hlen.symm
    have halloc : d.alloc n = ({ d with free := ids ++ rest }.setSlot id (some n), id) := by
      rw [alloc, h]
      rfl
    have hfree : (d.alloc n).1.free = ids ++ rest := by rw [halloc, free_setSlot]
    have hslots : (d.alloc n).1.slots.size = d.slots.size := by rw [halloc, size_setSlot]
    obtain ⟨hids, hrest, hsize⟩ := ih hfree (by simpa using hlen)
    refine ⟨?_, hrest, hsize.trans hslots⟩
    have hfirst : (d.alloc n).2 = id := by rw [halloc]
    change (d.alloc n).2 :: ((d.alloc n).1.allocAll ns).2 = id :: ids
    rw [hfirst, hids]

theorem free_foldl_release {ids : List NodeId} (hn : ids.Nodup)
    (hlive : ∀ x ∈ ids, ∃ n, d.node? x = some n) :
    (ids.foldl release d).free = ids.reverse ++ d.free := by
  induction ids generalizing d with
  | nil => rfl
  | cons id ids ih =>
    rw [List.nodup_cons] at hn
    obtain ⟨n, hread⟩ := hlive id List.mem_cons_self
    have hfree : (d.release id).free = id :: d.free := by rw [release, hread]
    rw [List.foldl_cons, ih hn.2, hfree, List.reverse_cons, List.append_assoc, List.singleton_append]
    intro x hx
    have hne : x ≠ id := fun e => hn.1 (e ▸ hx)
    rw [node?_release, if_neg hne]
    exact hlive x (List.mem_cons_of_mem _ hx)

theorem size_foldl_release (d : Document) (ids : List NodeId) :
    (ids.foldl release d).slots.size = d.slots.size := by
  induction ids generalizing d with
  | nil => rfl
  | cons id ids ih => rw [List.foldl_cons, ih, size_release]

@[simp] theorem free_detach (d : Document) (id : NodeId) : (d.detach id).free = d.free := by
  unfold detach
  split <;> simp

@[simp] theorem size_detach (d : Document) (id : NodeId) :
    (d.detach id).slots.size = d.slots.size := by
  unfold detach
  split <;> simp

theorem Holds.freeingOrder_perm (h : d.Holds q s) (hn : s.ids.Nodup) :
    (d.freeingOrder s.id).Perm s.ids := by
  have hheld : ∀ t ∈ [s], ∃ q, d.Holds q t := by simpa using ⟨q, h⟩
  have hwalk := walk_reverse_children d.slots.size hheld (by simpa using h.length_ids_le hn)
  simpa [freeingOrder] using hwalk

/-- The document without the nodes that are pending and the nodes below them, in at most so many steps.
The children are read off a node just before its slot is freed. -/
def freeAll : Nat → List NodeId → Document → Document
  | 0, _, d => d
  | _, [], d => d
  | steps + 1, id :: todo, d =>
    match d.node? id with
    | some n => freeAll steps (n.children.reverse ++ todo) (d.release id)
    | none => freeAll steps todo d

theorem walk_prefix (next : NodeId → List NodeId) (steps more : Nat) (todo : List NodeId) :
    walk next steps todo <+: walk next (steps + more) todo := by
  induction steps generalizing todo with
  | zero => exact List.nil_prefix
  | succ steps ih =>
    cases todo with
    | nil =>
      cases more <;> exact List.prefix_refl _
    | cons id todo =>
      rw [Nat.succ_add, walk, walk]
      exact List.cons_prefix_cons.mpr ⟨rfl, ih _⟩

/-- What was freed before lies elsewhere, so a pending node still has the children that it had. -/
theorem freeAll_eq (steps : Nat) {ss : List Shape} (h : ∀ s ∈ ss, ∃ q, d.Holds q s)
    (hn : (ss.flatMap Shape.ids).Nodup) {e : Document}
    (same : ∀ x ∈ ss.flatMap Shape.ids, e.node? x = d.node? x) :
    freeAll steps (ss.map Shape.id) e =
      (walk (fun i => (d.children i).reverse) steps (ss.map Shape.id)).foldl release e := by
  induction steps generalizing ss e with
  | zero => cases ss <;> rfl
  | succ steps ih =>
    cases ss with
    | nil => rfl
    | cons s ss =>
      obtain ⟨q, hs⟩ := h s List.mem_cons_self
      obtain ⟨l, hread⟩ := hs.read
      obtain ⟨id, cs⟩ := s
      have hperm : ((cs.reverse ++ ss).flatMap Shape.ids).Perm ((cs ++ ss).flatMap Shape.ids) :=
        (cs.reverse_perm.append_right ss).flatMap_right Shape.ids
      rw [List.flatMap_cons, Shape.ids_node, List.cons_append, ← List.flatMap_append,
        List.nodup_cons] at hn
      have hnext : ∀ s ∈ cs.reverse ++ ss, ∃ q, d.Holds q s := fun s hmem =>
        exists_holds_next h ((List.mem_append.mp hmem).imp_left List.mem_reverse.mp)
      have hkept : ∀ x ∈ (cs.reverse ++ ss).flatMap Shape.ids, (e.release id).node? x = d.node? x := by
        intro x hx
        have hmem := hperm.subset hx
        have hne : x ≠ id := fun heq => hn.1 (heq ▸ hmem)
        rw [node?_release, if_neg hne]
        refine same x ?_
        rw [List.flatMap_cons, Shape.ids_node, List.cons_append, ← List.flatMap_append]
        exact List.mem_cons_of_mem _ hmem
      have hroot : e.node? id = some ⟨l, q, cs.map Shape.id⟩ :=
        (same id (by simp [Shape.ids_node])).trans hread
      have hrest := ih hnext (hperm.nodup_iff.mpr hn.2) hkept
      have hchildren : d.children id = cs.map Shape.id := hs.children
      rw [List.map_append, List.map_reverse] at hrest
      rw [List.map_cons, freeAll, Shape.id, hroot, walk, List.foldl_cons, hchildren]
      exact hrest

/-- More steps than there are slots are never needed. -/
theorem Holds.freeAll_remove (h : d.Holds q s) (hn : s.ids.Nodup) (hout : ∀ p, q = some p → p ∉ s.ids)
    {steps : Nat} (hsteps : d.slots.size ≤ steps) :
    freeAll steps [s.id] (d.detach s.id) = d.remove s.id := by
  have hdetached := h.detach hn hout
  have hheld : ∀ t ∈ [s], ∃ q, (d.detach s.id).Holds q t := by simpa using ⟨none, hdetached⟩
  have hwalk : ∀ {steps}, d.slots.size ≤ steps →
      (walk (fun i => ((d.detach s.id).children i).reverse) steps [s.id]).length = s.ids.length := by
    intro steps hsteps
    have hvisits := walk_reverse_children steps hheld
      (by simpa using (h.length_ids_le hn).trans hsteps)
    simpa using hvisits.length_eq
  have hsize := size_detach d s.id
  obtain ⟨more, rfl⟩ := Nat.exists_eq_add_of_le hsteps
  have hlonger := walk_prefix (fun i => ((d.detach s.id).children i).reverse) d.slots.size more [s.id]
  have horder := hlonger.eq_of_length ((hwalk (Nat.le_refl _)).trans (hwalk hsteps).symm)
  have hfreed := freeAll_eq (d.slots.size + more) hheld (by simpa using hn) fun x _ => rfl
  rw [Document.remove, if_pos h.contains]
  dsimp only
  rw [freeingOrder, hsize, horder]
  exact hfreed

theorem Linked.under_iff (h : d.Linked) {x y : NodeId} :
    d.Under x y ↔ Relation.ReflTransGen d.IsParent x y := by
  constructor
  · exact fun hup => Relation.ReflTransGen.mono (fun _ _ hlink => hlink.1) _ _ hup
  · exact fun hup => Relation.ReflTransGen.mono (fun c p hcp => ⟨hcp, (h.linked c p).mpr hcp⟩) _ _ hup

theorem IsForest.parent_not_mem (h : d.IsForest) (hs : d.Holds q s) :
    ∀ p, q = some p → p ∉ s.ids := by
  rintro p rfl hp
  exact h.acyclic s.id (.head' hs.parent?_eq (Linked.below_of_mem_ids hs hp))

/-- The document `c` is `d` without the node `id` and the nodes below it. -/
structure Removed (d : Document) (id : NodeId) (c : Document) : Prop where
  live_iff : ∀ x, c.contains x = true ↔
    d.contains x = true ∧ ¬ Relation.ReflTransGen d.IsParent x id
  /-- Each slot of the subtree gets onto the free list once. -/
  freed : c.free.Nodup ∧ ∃ ids : List NodeId, ids.Perm (d.descendants id) ∧ c.free = ids ++ d.free
  /-- The parent loses this one child, and the others keep their order. -/
  unlinked : ∀ p, d.parent? id = some p → c.children p = (d.children p).erase id
  kept : ∀ x, c.contains x = true → c.label? x = d.label? x ∧ c.parent? x = d.parent? x ∧
    (d.parent? id ≠ some x → c.children x = d.children x)
  slots : c.slots.size = d.slots.size
  /-- A stack of pending nodes comes to the same document. -/
  stacked : ∀ steps, d.slots.size ≤ steps → freeAll steps [id] (d.detach id) = c
  /-- As many new nodes take the same slots again. -/
  reused : ∀ ns : List Node, ns.length = (d.descendants id).length →
    (c.allocAll ns).2.Perm (d.descendants id) ∧ (c.allocAll ns).1.slots.size = d.slots.size

theorem Holds.free_remove (h : d.Holds q s) (hn : s.ids.Nodup) (hout : ∀ p, q = some p → p ∉ s.ids) :
    ∃ ids : List NodeId, ids.Perm s.ids ∧ (d.remove s.id).free = ids ++ d.free := by
  have hdetached := h.detach hn hout
  have horder := hdetached.freeingOrder_perm hn
  refine ⟨((d.detach s.id).freeingOrder s.id).reverse, (List.reverse_perm _).trans horder, ?_⟩
  rw [Document.remove, if_pos h.contains, free_foldl_release (horder.nodup_iff.mpr hn), free_detach]
  exact fun x hx => hdetached.live x (horder.subset hx)

theorem size_remove (d : Document) (id : NodeId) : (d.remove id).slots.size = d.slots.size := by
  unfold remove
  split
  · rw [size_foldl_release, size_detach]
  · rfl

theorem Holds.children_remove (h : d.Holds q s) (hn : s.ids.Nodup) (hout : ∀ p, q = some p → p ∉ s.ids)
    {x : NodeId} (hx : x ∉ s.ids) :
    (d.remove s.id).children x =
      if q = some x then (d.children x).filter (· != s.id) else d.children x := by
  rw [Document.children, Document.children, h.node?_remove hn hout, if_neg hx]
  cases d.node? x with
  | none => simp
  | some n => split <;> simp_all

theorem Holds.label?_remove_of_not_mem (h : d.Holds q s) (hn : s.ids.Nodup)
    (hout : ∀ p, q = some p → p ∉ s.ids) {x : NodeId} (hx : x ∉ s.ids) :
    (d.remove s.id).label? x = d.label? x := by
  rw [label?, label?, h.node?_remove hn hout, if_neg hx, Option.map_map]
  rfl

theorem Holds.parent?_remove_of_not_mem (h : d.Holds q s) (hn : s.ids.Nodup)
    (hout : ∀ p, q = some p → p ∉ s.ids) {x : NodeId} (hx : x ∉ s.ids) :
    (d.remove s.id).parent? x = d.parent? x := by
  rw [parent?, parent?, h.node?_remove hn hout, if_neg hx, Option.bind_map]
  rfl

/-- A removal from a forest whose links and slots are in order frees just the subtree. -/
theorem removed_remove {d : Document} (h : d.IsForest) (hl : d.Linkage) {id : NodeId}
    (hlive : d.contains id = true) : Removed d id (d.remove id) := by
  obtain ⟨s, q, rfl, hs, hn⟩ := h.exists_holds hlive
  have hout := h.parent_not_mem hs
  have hnode := hs.node?_remove hn hout
  have htidy := hl.consistent.tidy.remove s.id
  have hbelow : ∀ x, x ∈ s.ids ↔ Relation.ReflTransGen d.IsParent x s.id := fun x =>
    hs.mem_ids_iff.trans h.toLinked.under_iff
  have hstay : ∀ x, (d.remove s.id).contains x = true → x ∉ s.ids := by
    intro x hx hmem
    rw [contains, hnode, if_pos hmem] at hx
    cases hx
  obtain ⟨ids, hperm, hfree⟩ := hs.free_remove hn hout
  have hsize := d.size_remove s.id
  refine ⟨fun x => ?_, ⟨htidy.free_nodup, ids, ?_, hfree⟩, fun p hp => ?_, fun x hx => ?_, hsize,
    fun _ => hs.freeAll_remove hn hout, ?_⟩
  · rw [← hbelow, contains, contains, hnode]
    by_cases hx : x ∈ s.ids <;> simp [hx]
  · rwa [hs.descendants hn]
  · have hq : q = some p := hs.parent?_eq.symm.trans hp
    rw [hs.children_remove hn hout (hout p hq), if_pos hq, (h.nodup p).erase_eq_filter]
  · have hx := hstay x hx
    refine ⟨hs.label?_remove_of_not_mem hn hout hx, hs.parent?_remove_of_not_mem hn hout hx,
      fun hne => ?_⟩
    rw [hs.parent?_eq] at hne
    rw [hs.children_remove hn hout hx, if_neg hne]
  · intro ns hns
    rw [hs.descendants hn] at hns ⊢
    obtain ⟨hids, -, hslots⟩ := allocAll_of_free hfree (hns.trans hperm.length_eq.symm)
    exact ⟨hids ▸ hperm, hslots.trans hsize⟩

/-- An item goes with its text. Two new nodes take the slots of the two, the last freed first. -/
theorem removed_from_listDocument :
    listDocument.IsForest ∧ listDocument.Linkage ∧ listDocument.contains 2 = true ∧
      Removed listDocument 2 (listDocument.remove 2) ∧ (listDocument.remove 2).free = [3, 2] ∧
      (listDocument.remove 2).children 0 = [1] := by
  have hlinkage : listDocument.Linkage := (consistent_empty.graft listTree).linkage
  have hlive : listDocument.contains 2 = true := rfl
  exact ⟨isForest_listDocument, hlinkage, hlive, removed_remove isForest_listDocument hlinkage hlive,
    by decide, by decide⟩

end Document

end LiveMarkup
