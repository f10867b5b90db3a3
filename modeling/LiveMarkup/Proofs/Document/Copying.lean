import LiveMarkup.Proofs.Document.Linkage
import LiveMarkup.Proofs.Document.RoundTrip

/-!
# Copies of subtrees

An import puts a copy of a subtree into slots that were empty. Position by position in document order
the copy has the labels of the subtree, and its links lead to the same positions. Nothing else in the
document changes.
-/

namespace LiveMarkup

namespace Document

variable {s d c : Document} {q : Option NodeId} {t t' : Shape}

/-- What is said of live nodes and free slots is all that an edit relies on. -/
theorem Linkage.consistent (h : d.Linkage) : d.Consistent where
  tidy := by
    refine ⟨List.nodup_iff_count_le_one.mpr fun id => ?_, fun id => ?_⟩
    · rw [h.free]
      split <;> omega
    · have hdead : d.contains id = false ↔ d.node? id = none := by
        rw [contains, Option.isSome_eq_false_iff, Option.isNone_iff_eq_none]
      rw [← List.count_pos_iff, h.free, ← hdead]
      split
      · rename_i hid
        exact ⟨fun _ => hid, fun _ => Nat.one_pos⟩
      · rename_i hid
        exact ⟨fun hpos => absurd hpos (Nat.lt_irrefl 0), fun hfree => absurd hfree hid⟩
  linked := by
    refine ⟨fun c p => ⟨fun hc => ?_, fun hc => ?_⟩, fun p => ?_⟩
    · have hp := contains_iff.mpr (IsForest.live_of_mem_children hc)
      exact (h.child_iff c p (h.child_live c p hc) hp).mp hc
    · have hlive := contains_iff.mpr (IsForest.live_of_isParent hc)
      exact (h.child_iff c p hlive (h.parent_live c p hc)).mpr hc
    · refine List.nodup_iff_count_le_one.mpr fun x => ?_
      by_cases hx : x ∈ d.children p
      · exact (h.once x p hx).le
      · rw [List.count_eq_zero.mpr hx]
        exact Nat.zero_le 1

theorem finite_live (d : Document) : {x | d.contains x = true}.Finite :=
  (Finset.range d.slots.size).finite_toSet.subset fun x hx => by
    obtain ⟨n, hn⟩ := contains_iff.mp hx
    exact Finset.mem_coe.mpr (Finset.mem_range.mpr (lt_size_of_node? hn))

theorem Copies.size_eq {tree : Tree} (h : Copies d c t tree) (hd : d.Tidy) :
    c.size = d.size + t.ids.length := by
  have hlive : {x | c.contains x = true} = {x | d.contains x = true} ∪ (t.ids.toFinset : Set NodeId) := by
    ext x
    rw [Set.mem_union, Finset.mem_coe, List.mem_toFinset, Set.mem_ofPred_eq, Set.mem_ofPred_eq]
    by_cases hx : x ∈ t.ids
    · have hnew := contains_iff.mpr (h.holds.live x hx)
      simp [hx, hnew]
    · rw [contains, contains, h.frame x hx]
      simp [hx]
  have hdisj : Disjoint {x | d.contains x = true} (t.ids.toFinset : Set NodeId) := by
    rw [Set.disjoint_left]
    intro x hx hmem
    rw [Finset.mem_coe, List.mem_toFinset] at hmem
    rw [Set.mem_ofPred_eq, contains, h.fresh x hmem] at hx
    cases hx
  rw [← h.tidy.ncard_live, ← hd.ncard_live, hlive,
    Set.ncard_union_eq hdisj d.finite_live (Finset.finite_toSet _), Set.ncard_coe_finset,
    List.toFinset_card_of_nodup h.nodup]

theorem Holds.node?_renamed {f : NodeId → NodeId} (h : s.Holds q t) (h' : c.Holds none t')
    (hroot : t'.id = f t.id) (hids : t'.ids = t.ids.map f) (hm : Mirrors s c f t.ids) {x : NodeId}
    (hx : x ∈ t.ids) :
    c.node? (f x) = (s.node? x).map fun n =>
      { label := n.label
        parent := if x = t.id then none else n.parent.map f
        children := n.children.map f } := by
  have hmem : ∀ {y}, y ∈ t.ids → f y ∈ t'.ids := fun hy => hids ▸ List.mem_map_of_mem hy
  obtain ⟨n, hn⟩ := h.live x hx
  obtain ⟨m, hread⟩ := h'.live (f x) (hmem hx)
  have hlabel : m.label = n.label := by
    have hsame := hm.labels x hx
    rw [label?_of_node? hread, label?_of_node? hn] at hsame
    exact Option.some.inj hsame
  have hchildren : m.children = n.children.map f := by
    have hsame := hm.children x hx
    rwa [children_of_node? hread, children_of_node? hn] at hsame
  have hparent : m.parent = if x = t.id then none else n.parent.map f := by
    by_cases hxt : x = t.id
    · have htop := h'.parent?_eq
      rw [hroot, ← hxt, parent?_of_node? hread] at htop
      rw [if_pos hxt, htop]
    · obtain ⟨p, hp, hxp⟩ := h.parent_mem hx hxt
      have hchild := (IsForest.mem_children_of_isParent h hx hxp).resolve_left hxt
      have hcopied : f x ∈ c.children (f p) := by
        rw [hm.children p hp]
        exact List.mem_map_of_mem hchild
      obtain ⟨-, m', hread', hup⟩ := h'.children_subset (hmem hp) hcopied
      obtain rfl : m = m' := Option.some.inj (hread.symm.trans hread')
      rw [parent?_of_node? hn] at hxp
      rw [if_neg hxt, hup, hxp, Option.map_some]
  obtain ⟨label, parent, children⟩ := m
  dsimp only at hlabel hchildren hparent
  rw [hread, hn, hlabel, hchildren, hparent]
  rfl

/-- The document with copies of the nodes that are pending and of the nodes below them, in at most so
many steps. Each pending node comes with the parent that its copy gets, and a copy without one is the
root. -/
def copyAll (source : Document) :
    Nat → List (NodeId × Option NodeId) → Document → Option NodeId → Document × Option NodeId
  | 0, _, d, root => (d, root)
  | _, [], d, root => (d, root)
  | steps + 1, (id, parent) :: todo, d, root =>
    match source.node? id with
    | none => copyAll source steps todo d root
    | some n =>
      let (d', copy) := d.alloc ⟨n.label, parent, []⟩
      copyAll source steps (n.children.map (·, some copy) ++ todo) (d.sprout parent n.label)
        (if (parent.bind d'.node?).isSome then root else some copy)

theorem copyAll_siblings {cs : List Shape}
    (h : ∀ c ∈ cs, ∀ {d : Document}, d.Tidy → ∀ {p : NodeId}, (∃ n, d.node? p = some n) →
      ∀ steps todo root, copyAll s (c.ids.length + steps) ((c.id, some p) :: todo) d root =
        copyAll s steps todo (graftBelow (some p) (s.treeAt c) d).1 root)
    (hd : d.Tidy) {p : NodeId} (hp : ∃ n, d.node? p = some n) (steps : Nat)
    (todo : List (NodeId × Option NodeId)) (root : Option NodeId) :
    copyAll s ((cs.flatMap Shape.ids).length + steps) ((cs.map Shape.id).map (·, some p) ++ todo) d
        root =
      copyAll s steps todo (graftAllBelow p (cs.map s.treeAt) d) root := by
  induction cs generalizing d with
  | nil =>
    rw [List.flatMap_nil, List.length_nil, Nat.zero_add]
    rfl
  | cons c cs ih =>
    obtain ⟨t, ht, -⟩ := graftBelow_grafts (s.treeAt c) hd (some p) (by rintro _ ⟨rfl⟩; exact hp)
    obtain ⟨n, hn⟩ := hp
    have hrest := ih (fun c' hc' => h c' (List.mem_cons_of_mem _ hc')) ht.tidy (ht.live hn)
    rw [List.flatMap_cons, List.length_append, Nat.add_assoc, List.map_cons, List.map_cons,
      List.cons_append, h c List.mem_cons_self hd ⟨n, hn⟩, hrest]
    rfl

theorem Holds.copyAll_eq (h : s.Holds q t) (hd : d.Tidy) {parent : Option NodeId}
    (hp : ∀ p, parent = some p → ∃ n, d.node? p = some n) (steps : Nat)
    (todo : List (NodeId × Option NodeId)) (root : Option NodeId) :
    copyAll s (t.ids.length + steps) ((t.id, parent) :: todo) d root =
      copyAll s steps todo (graftBelow parent (s.treeAt t) d).1
        (if parent.isSome then root else some (graftBelow parent (s.treeAt t) d).2) := by
  induction h generalizing d parent steps todo root with
  | @node q id cs l read _ ih =>
    have hlabel : s.labelAt id = l := by rw [labelAt, label?_of_node? read, Option.getD_some]
    have hread := hd.node?_sprout (l := l) hp
    have hparent : (parent.bind (d.alloc ⟨l, parent, []⟩).1.node?).isSome = parent.isSome := by
      cases parent with
      | none => rfl
      | some p =>
        obtain ⟨n, hn⟩ := hp p rfl
        rw [Option.bind_some, hd.node?_alloc, hn]
        split <;> rfl
    have hstep : (Shape.node id cs).ids.length + steps = (cs.flatMap Shape.ids).length + steps + 1 := by
      rw [Shape.ids_node, List.length_cons]
      omega
    rw [hstep, treeAt_node, hlabel, graftBelow_node, Shape.id, copyAll, read]
    dsimp only
    rw [hparent]
    refine copyAll_siblings (fun c hc e he p hp' steps todo root => ?_) (hd.sprout parent l)
      ⟨_, (hread _).trans (if_pos rfl)⟩ steps todo _
    exact ih c hc he (by rintro _ ⟨rfl⟩; exact hp') steps todo root

/-- More steps than there are slots are never needed. -/
theorem Holds.copyAll_importFrom (h : s.Holds q t) (hn : t.ids.Nodup) (hd : d.Tidy) {steps : Nat}
    (hsteps : s.slots.size ≤ steps) :
    copyAll s steps [(t.id, none)] d none = d.importFrom s t.id := by
  have hsize := h.length_ids_le hn
  obtain ⟨more, rfl⟩ := Nat.exists_eq_add_of_le (hsize.trans hsteps)
  rw [h.copyAll_eq hd (by simp), importFrom, h.tree? hn]
  cases more <;> rfl

/-- The document `c` is `d` with a copy of the subtree of `root` in `s`, and `r` is the root of the
copy. -/
structure Imported (s : Document) (root : NodeId) (d c : Document) (r : NodeId) : Prop where
  parentless : c.parent? r = none
  /-- Each node of the subtree has a node of the copy in its place, with the same label, its links
  going to the nodes in the place of those that they went to. -/
  places : ∃ f : NodeId → NodeId, r = f root ∧ c.descendants r = (s.descendants root).map f ∧
    ∀ x ∈ s.descendants root, c.node? (f x) = (s.node? x).map fun n =>
      { label := n.label
        parent := if x = root then none else n.parent.map f
        children := n.children.map f }
  distinct : (c.descendants r).Nodup
  fresh : ∀ x ∈ c.descendants r, d.contains x = false
  kept : ∀ x, d.contains x = true → c.node? x = d.node? x
  size : c.size = d.size + (s.descendants root).length
  /-- A stack of pending nodes comes to the same copy. -/
  stacked : ∀ steps, s.slots.size ≤ steps → copyAll s steps [(root, none)] d none = (c, some r)

theorem IsForest.imported (h : s.IsForest) {root : NodeId} (hroot : s.contains root = true)
    (hd : d.Tidy) : ∃ c r, d.importFrom s root = (c, some r) ∧ Imported s root d c r := by
  obtain ⟨t, q, rfl, ht, hn⟩ := h.exists_holds hroot
  obtain ⟨t', hcopy, hid⟩ := hd.graft (s.treeAt t)
  obtain ⟨f, hf, hids, hm⟩ := ht.exists_renaming hn hcopy.holds hcopy.tree
  have hnew := hcopy.holds.descendants hcopy.nodup
  have hold := ht.descendants hn
  have himport : d.importFrom s t.id = ((d.graft (s.treeAt t)).1, some t'.id) := by
    rw [importFrom, ht.tree? hn, hid]
  refine ⟨(d.graft (s.treeAt t)).1, t'.id, himport, hcopy.holds.parent?_eq, ⟨f, hf, ?_, ?_⟩, ?_, ?_,
    ?_, ?_, fun steps hsteps => ?_⟩
  · rw [hnew, hold, hids]
  · rw [hold]
    exact fun x hx => ht.node?_renamed hcopy.holds hf hids hm hx
  · rw [hnew]
    exact hcopy.nodup
  · rw [hnew]
    intro x hx
    rw [contains, hcopy.fresh x hx]
    rfl
  · intro x hx
    refine hcopy.frame x fun hmem => ?_
    rw [contains, hcopy.fresh x hmem] at hx
    cases hx
  · have hlen : t'.ids.length = t.ids.length := by rw [hids, List.length_map]
    rw [hold, hcopy.size_eq hd, hlen]
  · rw [ht.copyAll_importFrom hn hd hsteps, himport]

/-- An import into a document whose links and slots are in order copies just the subtree, and so does a
clone in a document of its own. -/
theorem imported_importFrom {s : Document} (hs : s.IsForest) {root : NodeId}
    (hroot : s.contains root = true) :
    (∀ d : Document, d.Linkage →
      ∃ c r, d.importFrom s root = (c, some r) ∧ Imported s root d c r) ∧
    (s.Linkage → ∃ c r, s.clone root = (c, some r) ∧ Imported s root s c r) :=
  ⟨fun _ hd => hs.imported hroot hd.consistent.tidy, fun h => hs.imported hroot h.consistent.tidy⟩

/-- The copy begins in the slots that were freed, the last one first, and goes on in new ones. -/
theorem imported_into_recycledDocument :
    listDocument.IsForest ∧ listDocument.contains 0 = true ∧ recycledDocument.Linkage ∧
      listDocument.Linkage ∧ recycledDocument.free = [0, 1] ∧
      (∃ c, recycledDocument.importFrom listDocument 0 = (c, some 0) ∧
        c.descendants 0 = [0, 1, 3, 4] ∧ Imported listDocument 0 recycledDocument c 0) ∧
      ∃ c, listDocument.clone 0 = (c, some 4) ∧ Imported listDocument 0 listDocument c 4 := by
  have hlist : listDocument.Linkage := (consistent_empty.graft listTree).linkage
  have hrecycled : recycledDocument.Linkage :=
    (consistent_empty.run [.createElement "p", .createElement "p", .createElement "p", .remove 1,
      .remove 0]).linkage
  have hroot : listDocument.contains 0 = true := rfl
  obtain ⟨hinto, hwithin⟩ := imported_importFrom isForest_listDocument hroot
  obtain ⟨c, r, hc, himported⟩ := hinto recycledDocument hrecycled
  obtain ⟨e, r', he, hcloned⟩ := hwithin hlist
  obtain rfl : r = 0 := (Option.some.inj (congrArg Prod.snd hc)).symm
  obtain rfl : r' = 4 := (Option.some.inj (congrArg Prod.snd he)).symm
  refine ⟨isForest_listDocument, hroot, hrecycled, hlist, by decide, ⟨c, hc, ?_, himported⟩, e, he,
    hcloned⟩
  obtain rfl : (recycledDocument.importFrom listDocument 0).1 = c := congrArg Prod.fst hc
  decide

end Document

end LiveMarkup
