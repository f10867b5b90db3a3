import LiveMarkup.Document.Path
import LiveMarkup.Proofs.Document.Shape
import Mathlib.Data.List.Induction

/-!
# Paths below the root of a held shape

Frames are followed from the root down and found from a node up. Below the root of a held shape
both go along the same links, so what is found for a place leads back to that place.
-/

namespace LiveMarkup

def Place.owner : Place → NodeId
  | .node id => id
  | .attribute owner _ => owner

theorem getElem?_filter_eq_some_iff {α : Type} {p : α → Bool} {xs : List α} {o : Nat} {y : α} :
    (xs.filter p)[o]? = some y ↔
      ∃ j, xs[j]? = some y ∧ p y = true ∧ (xs.take j).countP p = o := by
  induction xs generalizing o with
  | nil => simp
  | cons x xs ih =>
    by_cases hx : p x = true
    · rw [List.filter_cons_of_pos hx]
      constructor
      · intro h
        cases o with
        | zero => exact ⟨0, by simpa using h, by rw [← Option.some.inj h]; exact hx, rfl⟩
        | succ o =>
          obtain ⟨j, hj, hy, hcount⟩ := ih.mp (by simpa using h)
          exact ⟨j + 1, by simpa using hj, hy, by simp [hx, hcount]⟩
      · rintro ⟨j, hj, hy, hcount⟩
        cases j with
        | zero =>
          subst hcount
          simpa using hj
        | succ j =>
          obtain rfl : (xs.take j).countP p + 1 = o := by simpa [hx] using hcount
          exact ih.mpr ⟨j, by simpa using hj, hy, rfl⟩
    · rw [List.filter_cons_of_neg hx, ih]
      constructor
      · rintro ⟨j, hj, hy, hcount⟩
        exact ⟨j + 1, by simpa using hj, hy, by simp [hx, hcount]⟩
      · rintro ⟨j, hj, hy, hcount⟩
        cases j with
        | zero => exact absurd (by rw [Option.some.inj hj]; exact hy) hx
        | succ j => exact ⟨j, by simpa using hj, hy, by simpa [hx] using hcount⟩

theorem takeWhile_ne_eq_take {xs : List NodeId} (hn : xs.Nodup) {j : Nat} {y : NodeId}
    (h : xs[j]? = some y) : xs.takeWhile (· != y) = xs.take j := by
  induction xs generalizing j with
  | nil => simp at h
  | cons x xs ih =>
    rw [List.nodup_cons] at hn
    cases j with
    | zero =>
      obtain rfl : x = y := by simpa using h
      simp
    | succ j =>
      have hj : xs[j]? = some y := by simpa using h
      have hne : (x != y) = true := by
        simpa using fun e : x = y => hn.1 (e ▸ List.mem_of_getElem? hj)
      rw [List.takeWhile_cons, if_pos hne, ih hn.2 hj, List.take_succ_cons]

namespace Document

theorem childAt?_eq_some_iff {d : Document} {x y : NodeId} {k : NodeKind} {n : String} {o : Nat}
    (hn : (d.children x).Nodup) :
    d.childAt? x k n o = some y ↔
      y ∈ d.children x ∧ ∃ l, d.label? y = some l ∧ d.frameOf x y l = .child k n o := by
  have hstep : ((d.label? y).map (Label.sameStep k n)).getD false = true ↔
      ∃ l, d.label? y = some l ∧ l.kind = k ∧ l.name = n := by
    cases d.label? y <;> simp [Label.sameStep]
  rw [childAt?, getElem?_filter_eq_some_iff]
  constructor
  · rintro ⟨j, hj, hy, hcount⟩
    obtain ⟨l, hl, rfl, rfl⟩ := hstep.mp hy
    refine ⟨List.mem_of_getElem? hj, l, hl, ?_⟩
    rw [frameOf, takeWhile_ne_eq_take hn hj, hcount]
  · rintro ⟨hmem, l, hl, hframe⟩
    obtain ⟨j, hj⟩ := List.getElem?_of_mem hmem
    rw [frameOf, takeWhile_ne_eq_take hn hj, Frame.child.injEq] at hframe
    obtain ⟨rfl, rfl, hcount⟩ := hframe
    exact ⟨j, hj, hstep.mpr ⟨l, hl, rfl, rfl⟩, hcount⟩

/-! ### Following frames -/

theorem follow?_child (d : Document) (id : NodeId) (k : NodeKind) (n : String) (o : Nat)
    (fs : List Frame) :
    d.follow? id (.child k n o :: fs) = (d.childAt? id k n o).bind fun y => d.follow? y fs := by
  rw [follow?]

theorem follow?_append {d : Document} {id x : NodeId} {fs : List Frame} (gs : List Frame)
    (h : d.follow? id fs = some (.node x)) : d.follow? id (fs ++ gs) = d.follow? x gs := by
  induction fs generalizing id with
  | nil =>
    obtain rfl : id = x := by simpa [follow?] using h
    rfl
  | cons f fs ih =>
    rcases f with ⟨k, n, o⟩ | name
    · rw [follow?_child, Option.bind_eq_some_iff] at h
      obtain ⟨y, hy, h⟩ := h
      rw [List.cons_append, follow?_child, hy, Option.bind_some, ih h]
    · rw [follow?] at h
      split at h
      · simp at h
      · cases h

theorem exists_node_of_follow?_concat {d : Document} {id : NodeId} {fs : List Frame} {f : Frame}
    {t : Place} (h : d.follow? id (fs ++ [f]) = some t) :
    ∃ x, d.follow? id fs = some (.node x) ∧ d.follow? x [f] = some t := by
  induction fs generalizing id with
  | nil => exact ⟨id, rfl, h⟩
  | cons g fs ih =>
    rcases g with ⟨k, n, o⟩ | name
    · rw [List.cons_append, follow?_child, Option.bind_eq_some_iff] at h
      obtain ⟨y, hy, h⟩ := h
      obtain ⟨x, hx, hlast⟩ := ih h
      exact ⟨x, by rw [follow?_child, hy, Option.bind_some, hx], hlast⟩
    · rw [List.cons_append, follow?] at h
      simp at h

theorem follow?_attribute_eq_some_iff {d : Document} {x : NodeId} {name : String} {t : Place} :
    d.follow? x [.attribute name] = some t ↔
      ∃ i, (d.attributes x).entries.findIdx? (fun a => a.1 == name) = some i ∧
        t = .attribute x i := by
  rw [follow?, List.isEmpty_nil, if_pos rfl, Option.map_eq_some_iff]
  simp only [eq_comm]

theorem follow?_eq_attribute_iff {d : Document} {id x : NodeId} {i : Nat} {fs : List Frame} :
    d.follow? id fs = some (.attribute x i) ↔
      ∃ gs name, fs = gs ++ [.attribute name] ∧ d.follow? id gs = some (.node x) ∧
        (d.attributes x).entries.findIdx? (fun a => a.1 == name) = some i := by
  constructor
  · intro h
    rcases List.eq_nil_or_concat fs with rfl | ⟨gs, f, rfl⟩
    · simp [follow?] at h
    · rw [List.concat_eq_append] at h ⊢
      obtain ⟨y, hy, hlast⟩ := exists_node_of_follow?_concat h
      rcases f with ⟨k, n, o⟩ | name
      · rw [follow?_child, Option.bind_eq_some_iff] at hlast
        obtain ⟨z, _, hz⟩ := hlast
        simp [follow?] at hz
      · obtain ⟨j, hj, he⟩ := follow?_attribute_eq_some_iff.mp hlast
        cases he
        exact ⟨gs, name, rfl, hy, hj⟩
  · rintro ⟨gs, name, rfl, hnode, hi⟩
    rw [follow?_append _ hnode]
    exact follow?_attribute_eq_some_iff.mpr ⟨i, hi, rfl⟩

/-! ### Frames below the root of a held shape -/

variable {d : Document} {parent : Option NodeId} {s : Shape}

theorem Holds.children_subset (h : d.Holds parent s) {x y : NodeId} (hx : x ∈ s.ids)
    (hy : y ∈ d.children x) : y ∈ s.ids ∧ ∃ n, d.node? y = some n ∧ n.parent = some x := by
  induction h with
  | @node parent id cs l read below ih =>
    rw [Shape.ids_node, List.mem_cons, List.mem_flatMap] at hx
    rcases hx with rfl | ⟨c, hc, hx⟩
    · rw [children_of_node? read] at hy
      obtain ⟨c, hc, rfl⟩ := List.mem_map.mp hy
      obtain ⟨l, hread⟩ := (below c hc).read
      exact ⟨Shape.ids_subset_of_mem hc c.id_mem_ids, _, hread, rfl⟩
    · obtain ⟨hmem, hn⟩ := ih c hc hx
      exact ⟨Shape.ids_subset_of_mem hc hmem, hn⟩

theorem Shape.nodup_map_id {cs : List Shape} (h : (cs.flatMap Shape.ids).Nodup) :
    (cs.map Shape.id).Nodup := by
  induction cs with
  | nil => simp
  | cons c cs ih =>
    rw [List.flatMap_cons, List.nodup_append] at h
    rw [List.map_cons, List.nodup_cons]
    refine ⟨fun hmem => ?_, ih h.2.1⟩
    obtain ⟨c', hc', he⟩ := List.mem_map.mp hmem
    exact h.2.2 c.id c.id_mem_ids c'.id (List.mem_flatMap.mpr ⟨c', hc', c'.id_mem_ids⟩) he.symm

theorem Holds.children_nodup (h : d.Holds parent s) (hn : s.ids.Nodup) {x : NodeId}
    (hx : x ∈ s.ids) : (d.children x).Nodup := by
  induction h with
  | @node parent id cs l read below ih =>
    rw [Shape.ids_node, List.mem_cons, List.mem_flatMap] at hx
    rcases hx with rfl | ⟨c, hc, hx⟩
    · rw [children_of_node? read]
      rw [Shape.ids_node, List.nodup_cons] at hn
      exact Shape.nodup_map_id hn.2
    · exact ih c hc (Shape.nodup_of_mem hn hc) hx

theorem Holds.ne_root_of_mem_children (h : d.Holds parent s) (hn : s.ids.Nodup) {x y : NodeId}
    (hx : x ∈ s.ids) (hy : y ∈ d.children x) : y ≠ s.id := by
  cases h with
  | @node _ id cs l read below =>
    rw [Shape.ids_node, List.mem_cons, List.mem_flatMap] at hx
    rcases hx with rfl | ⟨c, hc, hx⟩
    · rw [children_of_node? read] at hy
      obtain ⟨c, hc, rfl⟩ := List.mem_map.mp hy
      exact Shape.ne_of_nodup hn hc c.id_mem_ids
    · exact Shape.ne_of_nodup hn hc ((below c hc).children_subset hx hy).1

theorem Holds.mem_of_follow? (h : d.Holds parent s) {fs : List Frame} {id x : NodeId}
    (hid : id ∈ s.ids) (hf : d.follow? id fs = some (.node x)) : x ∈ s.ids := by
  induction fs generalizing id with
  | nil =>
    obtain rfl : id = x := by simpa [follow?] using hf
    exact hid
  | cons f fs ih =>
    rcases f with ⟨k, n, o⟩ | name
    · rw [follow?_child, Option.bind_eq_some_iff] at hf
      obtain ⟨y, hy, hf⟩ := hf
      exact ih (h.children_subset hid (List.mem_of_mem_filter (List.mem_of_getElem? hy))).1 hf
    · rw [follow?] at hf
      split at hf
      · simp at hf
      · cases hf

theorem Holds.exists_follow? (h : d.Holds parent s) (hn : s.ids.Nodup) {x : NodeId}
    (hx : x ∈ s.ids) : ∃ fs, d.follow? s.id fs = some (.node x) ∧ fs.length < s.ids.length := by
  induction h with
  | @node parent id cs l read below ih =>
    rw [Shape.ids_node, List.mem_cons, List.mem_flatMap] at hx
    rcases hx with rfl | ⟨c, hc, hx⟩
    · exact ⟨[], rfl, by simp [Shape.ids_node]⟩
    · obtain ⟨fs, hfs, hlen⟩ := ih c hc (Shape.nodup_of_mem hn hc) hx
      obtain ⟨lc, hread⟩ := (below c hc).read
      have hnodup := (Holds.node read below).children_nodup hn (Shape.id_mem_ids _)
      have hchild := (childAt?_eq_some_iff hnodup).mpr
        ⟨by rw [Shape.id, children_of_node? read]; exact List.mem_map_of_mem hc, lc,
          label?_of_node? hread, rfl⟩
      refine ⟨d.frameOf id c.id lc :: fs, ?_, ?_⟩
      · rw [frameOf, follow?_child]
        exact hchild ▸ hfs
      · have := Shape.length_ids_lt id hc
        rw [List.length_cons]
        omega

theorem Holds.framesTo? (h : d.Holds parent s) (hn : s.ids.Nodup) {fs : List Frame} {x : NodeId}
    (hf : d.follow? s.id fs = some (.node x)) (steps : Nat) (hsteps : fs.length < steps)
    (rest : List Frame) : d.framesTo? s.id steps x rest = some (fs ++ rest) := by
  induction fs using List.reverseRecOn generalizing x steps rest with
  | nil =>
    obtain rfl : s.id = x := by simpa [follow?] using hf
    cases steps with
    | zero => simp at hsteps
    | succ steps => rw [Document.framesTo?, if_pos rfl, List.nil_append]
  | append_singleton fs f ih =>
    obtain ⟨p, hp, hlast⟩ := exists_node_of_follow?_concat hf
    rcases f with ⟨k, n, o⟩ | name
    · have hpmem := h.mem_of_follow? s.id_mem_ids hp
      have hchild : d.childAt? p k n o = some x := by
        simpa [follow?_child, follow?, Option.bind_eq_some_iff] using hlast
      obtain ⟨hmem, l, hl, hframe⟩ :=
        (childAt?_eq_some_iff (h.children_nodup hn hpmem)).mp hchild
      obtain ⟨_, ⟨l', parent', cs'⟩, hnode, rfl⟩ := h.children_subset hpmem hmem
      obtain rfl : l' = l := by
        rw [label?_of_node? hnode] at hl
        exact Option.some.inj hl
      cases steps with
      | zero => simp at hsteps
      | succ steps =>
        rw [Document.framesTo?, if_neg (h.ne_root_of_mem_children hn hpmem hmem), hnode]
        have hlen : fs.length < steps := by simpa using hsteps
        simp only [hframe, ih hp steps hlen, List.append_assoc, List.singleton_append]
    · obtain ⟨i, _, he⟩ := follow?_attribute_eq_some_iff.mp hlast
      cases he

/-! ### The codec below the root of a held shape -/

theorem Holds.decode?_eq (h : d.Holds parent s) (p : Path) :
    d.decode? s.id p = d.follow? s.id p.frames := by
  rw [Document.decode?, if_pos h.contains]

theorem Holds.length_lt_of_follow? (h : d.Holds parent s) (hn : s.ids.Nodup) {fs : List Frame}
    {x : NodeId} (hf : d.follow? s.id fs = some (.node x)) : fs.length < s.ids.length := by
  obtain ⟨gs, hgs, hlen⟩ := h.exists_follow? hn (h.mem_of_follow? s.id_mem_ids hf)
  have hup := h.framesTo? hn hf (fs.length + gs.length + 1) (by omega) []
  have hup' := h.framesTo? hn hgs (fs.length + gs.length + 1) (by omega) []
  obtain rfl : fs = gs := by simpa using hup.symm.trans hup'
  exact hlen

theorem Holds.climb (h : d.Holds parent s) (hn : s.ids.Nodup) {fs : List Frame} {x : NodeId}
    (hf : d.follow? s.id fs = some (.node x)) (rest : List Frame) :
    d.framesTo? s.id (d.slots.size + 1) x rest = some (fs ++ rest) := by
  have hlen := h.length_lt_of_follow? hn hf
  have hbound := h.length_ids_le hn
  exact h.framesTo? hn hf _ (by omega) rest

/-- A place below `root` that paths can tell apart from all others: a node, or an attribute whose
owner has no earlier one of the same name. -/
def Below (d : Document) (root : NodeId) : Place → Prop
  | .node id => id ∈ d.descendants root
  | .attribute owner index => owner ∈ d.descendants root ∧
      ∃ a, (d.attributes owner).entries[index]? = some a ∧
        ∀ b ∈ (d.attributes owner).entries.take index, b.1 ≠ a.1

theorem findIdx?_name_eq_some_iff {as : List (String × String)} {name : String} {i : Nat} :
    as.findIdx? (fun a => a.1 == name) = some i ↔
      ∃ a, as[i]? = some a ∧ a.1 = name ∧ ∀ b ∈ as.take i, b.1 ≠ name := by
  rw [List.findIdx?_eq_some_iff_getElem]
  constructor
  · rintro ⟨hlt, hname, hbefore⟩
    refine ⟨as[i], List.getElem?_eq_getElem hlt, by simpa using hname, fun b hb => ?_⟩
    obtain ⟨j, hj, rfl⟩ := List.mem_take_iff_getElem.mp hb
    simpa using hbefore j (by omega)
  · rintro ⟨a, ha, rfl, hbefore⟩
    obtain ⟨hlt, rfl⟩ := List.getElem?_eq_some_iff.mp ha
    refine ⟨hlt, by simp, fun j hj => ?_⟩
    simpa using hbefore as[j] (List.mem_take_iff_getElem.mpr ⟨j, by omega, rfl⟩)

/-- Below the root of a held shape a path is found for a place exactly if it leads there. -/
theorem Holds.encode?_eq_some_iff (h : d.Holds parent s) (hn : s.ids.Nodup) {t : Place}
    (ht : d.Below s.id t) {p : Path} :
    d.encode? s.id t = some p ↔ d.decode? s.id p = some t := by
  rw [h.decode?_eq]
  cases t with
  | node x =>
    rw [Below, h.descendants hn] at ht
    obtain ⟨fs, hfs, _⟩ := h.exists_follow? hn ht
    have henc : d.encode? s.id (.node x) = some ⟨fs⟩ := by
      simp only [encode?, if_pos h.contains, h.climb hn hfs, Option.map_some, List.append_nil]
    constructor
    · intro he
      obtain rfl : (⟨fs⟩ : Path) = p := Option.some.inj (henc.symm.trans he)
      exact hfs
    · intro hf
      simp only [encode?, if_pos h.contains, h.climb hn hf, Option.map_some, List.append_nil]
  | «attribute» x i =>
    obtain ⟨hx, a, ha, hfirst⟩ := ht
    rw [h.descendants hn] at hx
    obtain ⟨fs, hfs, _⟩ := h.exists_follow? hn hx
    have henc : ∀ gs, d.follow? s.id gs = some (.node x) →
        d.encode? s.id (.attribute x i) = some ⟨gs ++ [.attribute a.1]⟩ := fun gs hgs => by
      simp only [encode?, ha, Option.map_some, if_pos h.contains, h.climb hn hgs]
    have hidx := findIdx?_name_eq_some_iff.mpr ⟨a, ha, rfl, hfirst⟩
    rw [follow?_eq_attribute_iff]
    constructor
    · intro he
      obtain rfl : (⟨fs ++ [.attribute a.1]⟩ : Path) = p :=
        Option.some.inj ((henc fs hfs).symm.trans he)
      exact ⟨fs, a.1, rfl, hfs, hidx⟩
    · rintro ⟨gs, name, hp, hgs, hi⟩
      obtain ⟨b, hb, rfl, _⟩ := findIdx?_name_eq_some_iff.mp hi
      obtain rfl : a = b := Option.some.inj (ha.symm.trans hb)
      rw [henc gs hgs, ← hp]

theorem Holds.below_of_decode? (h : d.Holds parent s) (hn : s.ids.Nodup) {p : Path} {t : Place}
    (ht : d.decode? s.id p = some t) : d.Below s.id t := by
  rw [h.decode?_eq] at ht
  cases t with
  | node x =>
    rw [Below, h.descendants hn]
    exact h.mem_of_follow? s.id_mem_ids ht
  | «attribute» x i =>
    obtain ⟨gs, name, _, hgs, hi⟩ := follow?_eq_attribute_iff.mp ht
    obtain ⟨a, ha, rfl, hfirst⟩ := findIdx?_name_eq_some_iff.mp hi
    refine ⟨?_, a, ha, hfirst⟩
    rw [h.descendants hn]
    exact h.mem_of_follow? s.id_mem_ids hgs

theorem Holds.exists_decode? (h : d.Holds parent s) (hn : s.ids.Nodup) {t : Place}
    (ht : d.Below s.id t) : ∃ p, d.decode? s.id p = some t := by
  cases t with
  | node x =>
    rw [Below, h.descendants hn] at ht
    obtain ⟨fs, hfs, _⟩ := h.exists_follow? hn ht
    exact ⟨⟨fs⟩, by rw [h.decode?_eq, hfs]⟩
  | «attribute» x i =>
    obtain ⟨hx, a, ha, hfirst⟩ := ht
    rw [h.descendants hn] at hx
    obtain ⟨fs, hfs, _⟩ := h.exists_follow? hn hx
    refine ⟨⟨fs ++ [.attribute a.1]⟩, ?_⟩
    rw [h.decode?_eq, follow?_eq_attribute_iff]
    exact ⟨fs, a.1, rfl, hfs, findIdx?_name_eq_some_iff.mpr ⟨a, ha, rfl, hfirst⟩⟩

end Document

end LiveMarkup
