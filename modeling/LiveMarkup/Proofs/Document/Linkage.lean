import LiveMarkup.Document.Edit
import LiveMarkup.Proofs.Document.Lineage
import Mathlib.Data.Set.Card

/-!
# Links and slots under edits

Whatever the handles of an edit mean, the child lists and the parent links of the document go on
saying the same, and the free list goes on naming the empty slots. Links may run in a loop: this
invariant does not say that a document is a forest.
-/

namespace LiveMarkup

namespace Document

structure Consistent (d : Document) : Prop where
  tidy : d.Tidy
  linked : d.Linked

variable {d d' : Document}

theorem parent?_eq_of_links (h : ∀ x, d'.links? x = d.links? x) (x : NodeId) :
    d'.parent? x = d.parent? x := by
  have hparent := congrArg
    (fun l => l.bind fun l : Option NodeId × List NodeId => l.1) (h x)
  simp only [links?, Option.bind_map, Function.comp_def] at hparent
  exact hparent

namespace Linked

theorem parent_live (h : d.Linked) {c p : NodeId} (hc : d.IsParent c p) : ∃ n, d.node? p = some n :=
  IsForest.live_of_mem_children ((h.linked c p).mpr hc)

theorem of_links (h : d.Linked) (same : ∀ x, d'.links? x = d.links? x) : d'.Linked where
  linked c p := by
    rw [children_congr (same p), IsParent, parent?_eq_of_links same]
    exact h.linked c p
  nodup p := by
    rw [children_congr (same p)]
    exact h.nodup p

end Linked

theorem consistent_empty : empty.Consistent where
  tidy := tidy_empty
  linked := by
    refine ⟨fun c p => ?_, fun p => ?_⟩
    · simp [IsParent, parent?, Document.children, node?, empty]
    · simp [Document.children, node?, empty]

structure Relabelled (d d' : Document) : Prop where
  tidy : d.Tidy → d'.Tidy
  links : ∀ x, d'.links? x = d.links? x

theorem Consistent.relabelled (h : d.Consistent) (hd : Relabelled d d') : d'.Consistent :=
  ⟨hd.tidy h.tidy, h.linked.of_links hd.links⟩

theorem Relabelled.refl (d : Document) : Relabelled d d := ⟨id, fun _ => rfl⟩

theorem relabelled_modifyLabel (d : Document) (id : NodeId) (f : Label → Label) :
    Relabelled d (d.modifyLabel id f) where
  tidy h := h.modify id _
  links x := by
    rw [links?, links?, modifyLabel, node?_modify]
    by_cases hx : x = id
    · subst hx
      rw [if_pos rfl, Option.map_map]
      rfl
    · rw [if_neg hx]

theorem relabelled_setAttribute (d : Document) (id : NodeId) (name value : String) :
    Relabelled d (d.setAttribute id name value) := d.relabelled_modifyLabel id _

theorem relabelled_modifyAttributeAt (d : Document) (id : NodeId) (index : Nat)
    (f : String × String → String × String) : Relabelled d (d.modifyAttributeAt id index f).1 := by
  unfold modifyAttributeAt
  split
  · dsimp only
    exact d.relabelled_modifyLabel id _
  · exact .refl d

theorem relabelled_removeAttribute (d : Document) (id : NodeId) (name : String) :
    Relabelled d (d.removeAttribute id name).1 := by
  unfold removeAttribute
  split
  · exact .refl d
  · dsimp only
    exact d.relabelled_modifyLabel id _

theorem relabelled_setText (d : Document) (id : NodeId) (value : String) :
    Relabelled d (d.setText id value).1 := by
  unfold setText
  split
  · dsimp only
    exact d.relabelled_modifyLabel id _
  · exact .refl d

theorem relabelled_setControlValue (d : Document) (id : NodeId) (value : String) :
    Relabelled d (d.setControlValue id value).1 := by
  unfold setControlValue
  split
  · dsimp only
    exact d.relabelled_modifyLabel id _
  · exact .refl d

/-! ### New nodes -/

theorem Linked.grow (h : d.Linked) {s : Shape} {t : Tree} (hs : Copies d d' s t) : d'.Linked := by
  have hlive : ∀ {x n}, d.node? x = some n → x ∉ s.ids := fun hx hmem => by
    rw [hs.fresh _ hmem] at hx
    cases hx
  have hparent : ∀ {c p}, c ∉ s.ids → (d'.IsParent c p ↔ d.IsParent c p) := fun hc => by
    rw [IsParent, IsParent, parent?, parent?, hs.frame _ hc]
  have hchildren : ∀ {p}, p ∉ s.ids → d'.children p = d.children p := fun hp => by
    rw [Document.children, Document.children, hs.frame _ hp]
  refine ⟨fun c p => ?_, fun p => ?_⟩
  · constructor
    · intro hc
      by_cases hp : p ∈ s.ids
      · obtain ⟨-, m, hm, hcp⟩ := hs.holds.children_subset hp hc
        exact (parent?_of_node? hm).trans hcp
      · rw [hchildren hp, h.linked] at hc
        obtain ⟨n, hn⟩ := IsForest.live_of_isParent hc
        exact (hparent (hlive hn)).mpr hc
    · intro hc
      by_cases hmem : c ∈ s.ids
      · refine (IsForest.mem_children_of_isParent hs.holds hmem hc).resolve_left ?_
        rintro rfl
        rw [IsParent, hs.holds.parent?_eq] at hc
        cases hc
      · rw [hparent hmem] at hc
        obtain ⟨n, hn⟩ := h.parent_live hc
        rw [hchildren (hlive hn)]
        exact (h.linked c p).mpr hc
  · by_cases hp : p ∈ s.ids
    · exact hs.holds.children_nodup hs.nodup hp
    · rw [hchildren hp]
      exact h.nodup p

theorem Consistent.graft (h : d.Consistent) (t : Tree) : (d.graft t).1.Consistent := by
  obtain ⟨s, hs, -⟩ := h.tidy.graft t
  exact ⟨hs.tidy, h.linked.grow hs⟩

/-- To create a node is to graft a tree without children. -/
theorem graft_leaf (d : Document) (l : Label) : d.graft (.leaf l) = d.create l := by
  simp only [graft, Tree.leaf, graftBelow, graftAllBelow]
  rfl

theorem parent?_detach (d : Document) (id x : NodeId) :
    (d.detach id).parent? x = if x = id then none else d.parent? x := by
  rw [parent?, parent?, node?_detach, Option.bind_map]
  by_cases hx : x = id
  · simp [hx]
  · simp [hx]

theorem Linked.children_detach (h : d.Linked) (id x : NodeId) :
    (d.detach id).children x = (d.children x).filter (· != id) := by
  have hread : (d.detach id).children x =
      if d.parent? id = some x then (d.children x).filter (· != id) else d.children x := by
    rw [Document.children, Document.children, node?_detach]
    cases d.node? x <;> split <;> simp_all
  rw [hread]
  split
  · rfl
  · rename_i hx
    rw [eq_comm, List.filter_eq_self]
    intro y hy
    rw [bne_iff_ne]
    rintro rfl
    exact hx ((h.linked y x).mp hy)

theorem Linked.detach (h : d.Linked) (id : NodeId) : (d.detach id).Linked where
  linked c p := by
    rw [h.children_detach, IsParent, parent?_detach, List.mem_filter, h.linked, IsParent]
    by_cases hc : c = id <;> simp [hc]
  nodup p := by
    rw [h.children_detach]
    exact (h.nodup p).filter _

theorem Consistent.detach (h : d.Consistent) (id : NodeId) : (d.detach id).Consistent :=
  ⟨h.tidy.detach id, h.linked.detach id⟩

theorem insertInto_perm (x : NodeId) (before : Option NodeId) (ids : List NodeId) :
    (insertInto x before ids).Perm (x :: ids) := by
  unfold insertInto
  split
  · rename_i b
    have hperm : (ids.takeWhile (· != b) ++ x :: ids.dropWhile (· != b)).Perm
        (x :: (ids.takeWhile (· != b) ++ ids.dropWhile (· != b))) := List.perm_middle
    rwa [List.takeWhile_append_dropWhile] at hperm
  · exact List.perm_append_singleton x ids

structure Insertable (d : Document) (p c : NodeId) : Prop where
  parent : ∃ n, d.node? p = some n
  child : ∃ n, d.node? c = some n
  ne : p ≠ c

theorem insertBefore_of_not_insertable {p c : NodeId} (h : ¬ d.Insertable p c)
    (before : Option NodeId) : d.insertBefore p c before = d := by
  rw [Document.insertBefore, if_pos]
  by_contra hnot
  simp only [Bool.or_eq_true, decide_eq_true_eq, Bool.not_eq_true', not_or,
    Bool.not_eq_false] at hnot
  exact h ⟨contains_iff.mp hnot.1.2, contains_iff.mp hnot.2, hnot.1.1⟩

theorem Insertable.insertBefore_eq {p c : NodeId} (h : d.Insertable p c) (before : Option NodeId) :
    d.insertBefore p c before =
      ((d.detach c).modify c fun n => { n with parent := some p }).modify p fun n =>
        { n with children := insertInto c before n.children } := by
  have hlive : (decide (p = c) || !d.contains p || !d.contains c) = false := by
    simp [h.ne, contains_iff.mpr h.parent, contains_iff.mpr h.child]
  rw [Document.insertBefore, hlive]
  rfl

theorem Insertable.parent?_insertBefore {p c : NodeId} (h : d.Insertable p c)
    (before : Option NodeId) (x : NodeId) :
    (d.insertBefore p c before).parent? x = if x = c then some p else d.parent? x := by
  obtain ⟨n, hn⟩ := h.child
  have hdetached : (d.detach c).parent? x = if x = c then none else d.parent? x :=
    parent?_detach d c x
  have hmodified : (d.insertBefore p c before).parent? x =
      ((d.detach c).modify c fun n => { n with parent := some p }).parent? x := by
    rw [h.insertBefore_eq, parent?, parent?, node?_modify]
    by_cases hx : x = p
    · subst hx
      rw [if_pos rfl, Option.bind_map]
      rfl
    · rw [if_neg hx]
  rw [hmodified]
  by_cases hx : x = c
  · subst hx
    rw [if_pos rfl, parent?, node?_modify, if_pos rfl, node?_detach, hn]
    rfl
  · rw [if_neg hx] at hdetached ⊢
    rw [parent?, node?_modify, if_neg hx, ← hdetached, parent?]

theorem Insertable.children_insertBefore (hl : d.Linked) {p c : NodeId} (h : d.Insertable p c)
    (before : Option NodeId) (x : NodeId) :
    (d.insertBefore p c before).children x =
      if x = p then insertInto c before ((d.children x).filter (· != c))
      else (d.children x).filter (· != c) := by
  have hkeep : ((d.detach c).modify c fun n => { n with parent := some p }).children x =
      (d.children x).filter (· != c) := by
    rw [← hl.children_detach, Document.children, Document.children, node?_modify]
    by_cases hx : x = c
    · subst hx
      rw [if_pos rfl, Option.map_map]
      rfl
    · rw [if_neg hx]
  rw [h.insertBefore_eq, ← hkeep, Document.children, Document.children, node?_modify]
  by_cases hx : x = p
  · subst hx
    obtain ⟨n, hn⟩ := h.parent
    rw [if_pos rfl, if_pos rfl, node?_modify, if_neg h.ne, node?_detach, hn]
    rfl
  · rw [if_neg hx, if_neg hx]

theorem Linked.insertBefore (h : d.Linked) (p c : NodeId) (before : Option NodeId) :
    (d.insertBefore p c before).Linked := by
  by_cases hpc : d.Insertable p c
  · refine ⟨fun x q => ?_, fun q => ?_⟩
    · rw [hpc.children_insertBefore h, IsParent, hpc.parent?_insertBefore]
      have hkept : x ∈ (d.children q).filter (· != c) ↔ d.IsParent x q ∧ x ≠ c := by
        rw [List.mem_filter, h.linked, bne_iff_ne]
      by_cases hx : x = c
      · subst hx
        by_cases hq : q = p
        · simp [hq, (insertInto_perm x before _).mem_iff]
        · have hpq : ¬ p = q := fun e => hq e.symm
          simp [hq, hpq]
      · by_cases hq : q = p
        · rw [if_pos hq, if_neg hx, (insertInto_perm c before _).mem_iff, List.mem_cons, hkept,
            IsParent]
          simp [hx]
        · rw [if_neg hq, if_neg hx, hkept, IsParent]
          simp [hx]
    · rw [hpc.children_insertBefore h]
      have hkept := (h.nodup q).filter (· != c)
      split
      · rw [(insertInto_perm c before _).nodup_iff, List.nodup_cons]
        exact ⟨by simp, hkept⟩
      · exact hkept
  · rw [insertBefore_of_not_insertable hpc]
    exact h

theorem Consistent.insertBefore (h : d.Consistent) (p c : NodeId) (before : Option NodeId) :
    (d.insertBefore p c before).Consistent :=
  ⟨h.tidy.insertBefore p c before, h.linked.insertBefore p c before⟩

theorem grounded_of_parentless {x : NodeId} (h : d.parent? x = none) : d.Grounded x := by
  intro y hy
  induction hy using Relation.ReflTransGen.head_induction_on with
  | refl =>
    intro hloop
    obtain ⟨p, hp, -⟩ := Relation.TransGen.head'_iff.mp hloop
    rw [IsParent, h] at hp
    cases hp
  | head hyz _ ih => exact IsForest.not_above_self hyz ih

theorem contains_detach (d : Document) (id x : NodeId) :
    (d.detach id).contains x = d.contains x := by
  rw [contains, contains, node?_detach, Option.isSome_map]

/-- A node is detached before its subtree is freed. There may have been a loop above it, but
none is left. -/
theorem Linked.exists_freed (h : d.Linked) {id : NodeId} (hlive : d.contains id = true) :
    ∃ s : Shape, s.id = id ∧ (d.detach id).Holds none s ∧ s.ids.Nodup ∧
      ∀ x, (d.remove id).node? x = if x ∈ s.ids then none else (d.detach id).node? x := by
  have hroot : (d.detach id).parent? id = none := by rw [parent?_detach, if_pos rfl]
  obtain ⟨s, parent, rfl, hs, hn⟩ := (h.detach id).exists_holds (grounded_of_parentless hroot)
    ((contains_detach d id id).trans hlive)
  obtain rfl : parent = none := hs.parent?_eq.symm.trans hroot
  refine ⟨s, rfl, hs, hn, fun x => ?_⟩
  rw [Document.remove, if_pos hlive, node?_foldl_release]
  simp only [hs.mem_freeingOrder hn]

theorem Linked.remove (h : d.Linked) (id : NodeId) : (d.remove id).Linked := by
  by_cases hlive : d.contains id = true
  · obtain ⟨s, rfl, hs, -, hnode⟩ := h.exists_freed hlive
    have hd := h.detach s.id
    have hparent : ∀ c, (d.remove s.id).parent? c =
        if c ∈ s.ids then none else (d.detach s.id).parent? c := fun c => by
      rw [parent?, hnode]
      split <;> rfl
    have hchildren : ∀ p, (d.remove s.id).children p =
        if p ∈ s.ids then [] else (d.detach s.id).children p := fun p => by
      rw [Document.children, hnode]
      split <;> rfl
    -- a link of the detached document does not leave the subtree
    have hinside : ∀ {c p}, (d.detach s.id).IsParent c p → (c ∈ s.ids ↔ p ∈ s.ids) := by
      intro c p hcp
      constructor
      · intro hc
        have hne : c ≠ s.id := by
          rintro rfl
          rw [IsParent, hs.parent?_eq] at hcp
          cases hcp
        obtain ⟨q, hq, hcq⟩ := hs.parent_mem hc hne
        rwa [Option.some.inj (hcp.symm.trans hcq)]
      · exact fun hp => (hs.children_subset hp ((hd.linked c p).mpr hcp)).1
    refine ⟨fun c p => ?_, fun p => ?_⟩
    · rw [hchildren, IsParent, hparent]
      by_cases hp : p ∈ s.ids
      · rw [if_pos hp]
        by_cases hc : c ∈ s.ids
        · simp [hc]
        · rw [if_neg hc]
          refine ⟨fun h => absurd h (by simp), fun hcp => absurd ((hinside hcp).mpr hp) hc⟩
      · rw [if_neg hp, hd.linked]
        by_cases hc : c ∈ s.ids
        · rw [if_pos hc]
          exact ⟨fun hcp => absurd ((hinside hcp).mp hc) hp, fun h => by cases h⟩
        · rw [if_neg hc, IsParent]
    · rw [hchildren]
      split
      · exact List.nodup_nil
      · exact hd.nodup p
  · have hdead : d.remove id = d := by rw [Document.remove, if_neg hlive]
    rw [hdead]
    exact h

theorem Consistent.remove (h : d.Consistent) (id : NodeId) : (d.remove id).Consistent :=
  ⟨h.tidy.remove id, h.linked.remove id⟩

/-! ### Runs of edits -/

/-- The ways in which an edit that inserts nothing can change a document. -/
inductive Change (d : Document) : Document → Prop where
  | graft (t : Tree) : Change d (d.graft t).1
  | detach (id : NodeId) : Change d (d.detach id)
  | remove (id : NodeId) : Change d (d.remove id)
  | relabel {d' : Document} (h : Relabelled d d') : Change d d'

theorem change_create (d : Document) (l : Label) : Change d (d.create l).1 :=
  graft_leaf d l ▸ .graft (.leaf l)

theorem change_importFrom (d source : Document) (root : NodeId) :
    Change d (d.importFrom source root).1 := by
  unfold importFrom
  split
  · exact .graft _
  · exact .relabel (.refl d)

end Document

def Edit.insertion? : Edit → Option (NodeId × NodeId)
  | .append parent child => some (parent, child)
  | .insertBefore parent child _ => some (parent, child)
  | _ => none

/-- An edit inserts a child, or it changes the document in one of the other ways. -/
theorem Edit.apply_cases (d : Document) (e : Edit) :
    (∃ p c before, e.insertion? = some (p, c) ∧ (e.apply d).1 = d.insertBefore p c before) ∨
      (e.insertion? = none ∧ d.Change (e.apply d).1) := by
  cases e with
  | append parent child => exact .inl ⟨parent, child, none, rfl, rfl⟩
  | insertBefore parent child before => exact .inl ⟨parent, child, before, rfl, rfl⟩
  | createElement name => exact .inr ⟨rfl, d.change_create _⟩
  | createText value => exact .inr ⟨rfl, d.change_create _⟩
  | createComment value => exact .inr ⟨rfl, d.change_create _⟩
  | detach id => exact .inr ⟨rfl, .detach id⟩
  | remove id => exact .inr ⟨rfl, .remove id⟩
  | clone root => exact .inr ⟨rfl, d.change_importFrom d root⟩
  | importFrom source root => exact .inr ⟨rfl, d.change_importFrom source root⟩
  | setAttribute id name value => exact .inr ⟨rfl, .relabel (d.relabelled_setAttribute id name value)⟩
  | setAttributeAt id index value =>
    exact .inr ⟨rfl, .relabel (d.relabelled_modifyAttributeAt id index _)⟩
  | renameAttributeAt id index name =>
    exact .inr ⟨rfl, .relabel (d.relabelled_modifyAttributeAt id index _)⟩
  | removeAttribute id name => exact .inr ⟨rfl, .relabel (d.relabelled_removeAttribute id name)⟩
  | setText id value => exact .inr ⟨rfl, .relabel (d.relabelled_setText id value)⟩
  | setControlValue id value =>
    exact .inr ⟨rfl, .relabel (d.relabelled_setControlValue id value)⟩

namespace Document

variable {d d' : Document}

theorem Consistent.change (h : d.Consistent) (hd : d.Change d') : d'.Consistent := by
  cases hd with
  | graft t => exact h.graft t
  | detach id => exact h.detach id
  | remove id => exact h.remove id
  | relabel hd => exact h.relabelled hd

theorem Consistent.apply (h : d.Consistent) (e : Edit) : (e.apply d).1.Consistent := by
  rcases e.apply_cases d with ⟨p, c, before, -, he⟩ | ⟨-, hd⟩
  · exact he ▸ h.insertBefore p c before
  · exact h.change hd

theorem Consistent.run (h : d.Consistent) (edits : List Edit) : (Edit.run d edits).Consistent := by
  induction edits generalizing d with
  | nil => exact h
  | cons e edits ih => exact ih (h.apply e)

/-! ### What the invariant says -/

theorem Tidy.ncard_live (h : d.Tidy) : {id | d.contains id = true}.ncard = d.size := by
  have hslots : (Finset.range d.slots.size) =
      d.free.toFinset ∪ (Finset.range d.slots.size).filter (d.contains · = true) := by
    ext id
    rw [Finset.mem_union, List.mem_toFinset, Finset.mem_filter, Finset.mem_range, h.mem_free]
    cases hn : d.node? id <;> simp [contains, hn]
  have hdisj : Disjoint d.free.toFinset ((Finset.range d.slots.size).filter (d.contains · = true)) := by
    rw [Finset.disjoint_left]
    intro id hfree hlive
    rw [List.mem_toFinset, h.mem_free] at hfree
    rw [Finset.mem_filter, contains, hfree.2] at hlive
    cases hlive.2
  have hlive : {id | d.contains id = true} =
      ((Finset.range d.slots.size).filter (d.contains · = true) : Finset NodeId) := by
    ext id
    rw [Finset.mem_coe, Finset.mem_filter, Finset.mem_range, Set.mem_ofPred_eq]
    refine ⟨fun hid => ⟨?_, hid⟩, And.right⟩
    obtain ⟨n, hn⟩ := contains_iff.mp hid
    exact lt_size_of_node? hn
  have hcard := congrArg Finset.card hslots
  rw [Finset.card_range, Finset.card_union_of_disjoint hdisj,
    List.toFinset_card_of_nodup h.free_nodup] at hcard
  rw [hlive, Set.ncard_coe_finset, size]
  omega

/-- The links of live nodes agree, no link leads to a node that is gone, and the slots are
accounted for. -/
structure Linkage (d : Document) : Prop where
  child_iff : ∀ c p, d.contains c = true → d.contains p = true →
    (c ∈ d.children p ↔ d.parent? c = some p)
  once : ∀ c p, c ∈ d.children p → (d.children p).count c = 1
  child_live : ∀ c p, c ∈ d.children p → d.contains c = true
  parent_live : ∀ c p, d.parent? c = some p → d.contains p = true
  free : ∀ id, d.free.count id = if id < d.slots.size ∧ d.contains id = false then 1 else 0
  size : d.size = {id | d.contains id = true}.ncard

theorem Consistent.linkage (h : d.Consistent) : d.Linkage where
  child_iff c p _ _ := h.linked.linked c p
  once c p hc := List.count_eq_one_of_mem (h.linked.nodup p) hc
  child_live c p hc := contains_iff.mpr (IsForest.live_of_isParent ((h.linked.linked c p).mp hc))
  parent_live c p hc := contains_iff.mpr (h.linked.parent_live hc)
  free id := by
    have hfree : id ∈ d.free ↔ id < d.slots.size ∧ d.contains id = false := by
      rw [h.tidy.mem_free, contains, Option.isSome_eq_false_iff, Option.isNone_iff_eq_none]
    split
    · rename_i hid
      exact List.count_eq_one_of_mem h.tidy.free_nodup (hfree.mpr hid)
    · rename_i hid
      exact List.count_eq_zero.mpr fun hmem => hid (hfree.mp hmem)
  size := h.tidy.ncard_live.symm

/-- Every document that edits lead to has its links and slots in order, whatever the handles of the
edits mean. An edit that does not come to an end, a copy of a tree that runs in a loop, is
included as one that makes some finite copy. -/
theorem linkage_run (edits : List Edit) : (Edit.run .empty edits).Linkage :=
  (consistent_empty.run edits).linkage

end Document

end LiveMarkup
