import LiveMarkup.Document.Walk

namespace LiveMarkup

namespace Document

/-- The free list names every empty slot exactly once. -/
structure Tidy (d : Document) : Prop where
  free_nodup : d.free.Nodup
  mem_free : ∀ id, id ∈ d.free ↔ id < d.slots.size ∧ d.node? id = none

theorem tidy_empty : Tidy empty := ⟨List.nodup_nil, by simp [empty]⟩

theorem lt_size_of_node? {d : Document} {id : NodeId} {n : Node} (h : d.node? id = some n) :
    id < d.slots.size := by
  apply Nat.lt_of_not_le
  intro hle
  rw [node?, Array.getElem?_eq_none hle] at h
  cases h

theorem contains_iff {d : Document} {id : NodeId} : d.contains id = true ↔ ∃ n, d.node? id = some n := by
  simp [contains, Option.isSome_iff_exists]

theorem node?_setSlot (d : Document) (id j : NodeId) (n : Option Node) :
    (d.setSlot id n).node? j = if j = id ∧ id < d.slots.size then n else d.node? j := by
  unfold node? setSlot
  by_cases hj : j = id
  · subst hj
    by_cases hlt : j < d.slots.size
    · simp [hlt]
    · simp [hlt]
  · simp [Array.getElem?_setIfInBounds_ne (Ne.symm hj), hj]

@[simp] theorem size_setSlot (d : Document) (id : NodeId) (n : Option Node) :
    (d.setSlot id n).slots.size = d.slots.size := by
  simp [setSlot]

@[simp] theorem free_setSlot (d : Document) (id : NodeId) (n : Option Node) :
    (d.setSlot id n).free = d.free := rfl

theorem node?_modify (d : Document) (id j : NodeId) (f : Node → Node) :
    (d.modify id f).node? j = if j = id then (d.node? id).map f else d.node? j := by
  unfold modify
  split
  · rename_i n hn
    rw [node?_setSlot, hn]
    simp [lt_size_of_node? hn]
  · rename_i hn
    by_cases hj : j = id
    · simp [hj, hn]
    · simp [hj]

theorem node?_modify_eq_none (d : Document) (id j : NodeId) (f : Node → Node) :
    (d.modify id f).node? j = none ↔ d.node? j = none := by
  rw [node?_modify]
  split
  · rename_i h
    rw [h, Option.map_eq_none_iff]
  · rfl

@[simp] theorem size_modify (d : Document) (id : NodeId) (f : Node → Node) :
    (d.modify id f).slots.size = d.slots.size := by
  unfold modify
  split <;> simp

@[simp] theorem free_modify (d : Document) (id : NodeId) (f : Node → Node) :
    (d.modify id f).free = d.free := by
  unfold modify
  split <;> rfl

theorem Tidy.modify {d : Document} (h : d.Tidy) (id : NodeId) (f : Node → Node) :
    (d.modify id f).Tidy where
  free_nodup := by simpa using h.free_nodup
  mem_free j := by simpa [node?_modify_eq_none] using h.mem_free j

theorem Tidy.node?_snd_alloc {d : Document} (h : d.Tidy) (n : Node) :
    d.node? (d.alloc n).2 = none := by
  unfold alloc
  split
  · rename_i id rest hfree
    exact ((h.mem_free id).mp (by simp [hfree])).2
  · simp [node?]

theorem Tidy.node?_alloc {d : Document} (h : d.Tidy) (n : Node) (j : NodeId) :
    (d.alloc n).1.node? j = if j = (d.alloc n).2 then some n else d.node? j := by
  unfold alloc
  split
  · rename_i id rest hfree
    have hid := (h.mem_free id).mp (by simp [hfree])
    rw [node?_setSlot]
    simp only [hid.1, and_true]
    rfl
  · by_cases hj : j = d.slots.size
    · subst hj
      simp [node?]
    · rw [if_neg hj]
      simp [node?, Array.getElem?_push, hj]

theorem Tidy.alloc {d : Document} (h : d.Tidy) (n : Node) : (d.alloc n).1.Tidy := by
  have hread := h.node?_alloc n
  have hnone := h.node?_snd_alloc n
  revert hread hnone
  unfold Document.alloc
  split
  · rename_i id rest hfree
    intro hread hnone
    have hnodup := h.free_nodup
    rw [hfree, List.nodup_cons] at hnodup
    refine ⟨hnodup.2, fun j => ?_⟩
    rw [hread j, size_setSlot]
    have hmem := h.mem_free j
    rw [hfree, List.mem_cons] at hmem
    by_cases hj : j = id
    · simpa [hj] using hnodup.1
    · simpa [hj] using hmem
  · rename_i hfree
    intro hread hnone
    refine ⟨by simp [hfree], fun j => ?_⟩
    rw [hread j]
    have hmem := h.mem_free j
    rw [hfree] at hmem
    by_cases hj : j = d.slots.size
    · simp [hj, hfree]
    · have hlt : j < d.slots.size + 1 ↔ j < d.slots.size :=
        ⟨fun hle => Nat.lt_of_le_of_ne (Nat.le_of_lt_succ hle) hj, Nat.lt_succ_of_lt⟩
      simpa [hj, hfree, hlt] using hmem

theorem node?_release (d : Document) (id j : NodeId) :
    (d.release id).node? j = if j = id then none else d.node? j := by
  unfold release
  split
  · rename_i n hn
    have hset := node?_setSlot d id j none
    simpa [lt_size_of_node? hn, node?] using hset
  · rename_i hn
    by_cases hj : j = id
    · simp [hj, hn]
    · simp [hj]

@[simp] theorem size_release (d : Document) (id : NodeId) :
    (d.release id).slots.size = d.slots.size := by
  unfold release
  split <;> simp

theorem Tidy.release {d : Document} (h : d.Tidy) (id : NodeId) : (d.release id).Tidy := by
  have hread := node?_release d id
  have hsize := size_release d id
  revert hread hsize
  unfold Document.release
  split
  · rename_i n hn
    intro hread hsize
    have hlive : id ∉ d.free := fun hmem => by simp [((h.mem_free id).mp hmem).2] at hn
    refine ⟨List.nodup_cons.mpr ⟨hlive, h.free_nodup⟩, fun j => ?_⟩
    rw [hread j, hsize, List.mem_cons, h.mem_free j]
    by_cases hj : j = id
    · simp [hj, lt_size_of_node? hn]
    · simp [hj]
  · exact fun _ _ => h

theorem node?_foldl_release (d : Document) (ids : List NodeId) (j : NodeId) :
    (ids.foldl Document.release d).node? j = if j ∈ ids then none else d.node? j := by
  induction ids generalizing d with
  | nil => simp
  | cons id rest ih =>
    rw [List.foldl_cons, ih, node?_release]
    by_cases hrest : j ∈ rest
    · simp [hrest]
    · by_cases hj : j = id <;> simp [hrest, hj]

theorem Tidy.foldl_release {d : Document} (h : d.Tidy) (ids : List NodeId) :
    (ids.foldl Document.release d).Tidy := by
  induction ids generalizing d with
  | nil => exact h
  | cons id rest ih => exact ih (h.release id)

theorem label?_of_node? {d : Document} {id : NodeId} {n : Node} (h : d.node? id = some n) :
    d.label? id = some n.label := by
  rw [label?, h]
  rfl

theorem children_of_node? {d : Document} {id : NodeId} {n : Node} (h : d.node? id = some n) :
    d.children id = n.children := by
  rw [children, h]
  rfl

theorem parent?_of_node? {d : Document} {id : NodeId} {n : Node} (h : d.node? id = some n) :
    d.parent? id = n.parent := by
  rw [parent?, h]
  rfl

end Document

end LiveMarkup
