import LiveMarkup.Proofs.Document.Linkage

/-!
# Edits that keep a forest

An insertion makes a loop exactly if its child is above its parent, and no other edit can make one.
As long as no edit of a run makes a loop, the way up from a live node ends at a root, and every way
through the document comes to an end.
-/

namespace LiveMarkup

namespace Document

variable {d d' : Document}

/-! ### One edit -/

theorem IsForest.of_linked (h : d.IsForest) (hl : d'.Linked)
    (sub : ∀ c p, d'.IsParent c p → d.IsParent c p) : d'.IsForest :=
  ⟨hl.linked, hl.nodup, fun x hx => h.acyclic x (Relation.TransGen.mono sub _ _ hx)⟩

theorem isForest_empty : empty.IsForest where
  linked := consistent_empty.linked.linked
  nodup := consistent_empty.linked.nodup
  acyclic x hx := by
    obtain ⟨p, hp, -⟩ := Relation.TransGen.head'_iff.mp hx
    obtain ⟨n, hn⟩ := IsForest.live_of_isParent hp
    simp [node?, empty] at hn

theorem IsForest.detach (h : d.IsForest) (id : NodeId) : (d.detach id).IsForest := by
  refine h.of_linked (h.toLinked.detach id) fun c p hcp => ?_
  rw [IsParent, parent?_detach] at hcp
  split at hcp
  · cases hcp
  · exact hcp

theorem IsForest.remove (h : d.IsForest) (id : NodeId) : (d.remove id).IsForest := by
  by_cases hlive : d.contains id = true
  · obtain ⟨s, -, -, -, hnode⟩ := h.toLinked.exists_freed hlive
    refine (h.detach id).of_linked (h.toLinked.remove id) fun c p hcp => ?_
    rw [IsParent, parent?, hnode] at hcp
    split at hcp
    · cases hcp
    · exact hcp
  · have hdead : d.remove id = d := by rw [Document.remove, if_neg hlive]
    rw [hdead]
    exact h

/-- A graft is a tree of its own, and no link leads into it or out of it. -/
theorem IsForest.graft (h : d.IsForest) (tidy : d.Tidy) (t : Tree) : (d.graft t).1.IsForest := by
  obtain ⟨s, hs, -⟩ := tidy.graft t
  have hl := h.toLinked.grow hs
  refine ⟨hl.linked, hl.nodup, fun x hx => ?_⟩
  by_cases hmem : x ∈ s.ids
  · have hroot : ¬ Relation.TransGen (d.graft t).1.IsParent s.id s.id := by
      intro hloop
      obtain ⟨p, hp, -⟩ := Relation.TransGen.head'_iff.mp hloop
      rw [IsParent, hs.holds.parent?_eq] at hp
      cases hp
    exact IsForest.not_above_self_of_mem_ids hs.holds hroot x hmem hx
  · have hout : ∀ {y z}, y ∉ s.ids → (d.graft t).1.IsParent y z → d.IsParent y z ∧ z ∉ s.ids := by
      intro y z hy hyz
      rw [IsParent, parent?, hs.frame y hy] at hyz
      refine ⟨hyz, fun hz => ?_⟩
      obtain ⟨n, hn⟩ := h.toLinked.parent_live hyz
      rw [hs.fresh z hz] at hn
      cases hn
    have hup : ∀ {y}, Relation.TransGen (d.graft t).1.IsParent x y →
        Relation.TransGen d.IsParent x y ∧ y ∉ s.ids := by
      intro y hy
      induction hy with
      | single hxy =>
        obtain ⟨hxy, hy⟩ := hout hmem hxy
        exact ⟨.single hxy, hy⟩
      | tail _ hyz ih =>
        obtain ⟨hyz, hz⟩ := hout ih.2 hyz
        exact ⟨ih.1.tail hyz, hz⟩
    exact h.acyclic x (hup hx).1

theorem IsForest.relabelled (h : d.IsForest) (hd : Relabelled d d') : d'.IsForest := by
  refine h.of_linked (h.toLinked.of_links hd.links) fun c p hcp => ?_
  rwa [IsParent, parent?_eq_of_links hd.links] at hcp

theorem IsForest.change (h : d.IsForest) (tidy : d.Tidy) (hd : d.Change d') : d'.IsForest := by
  cases hd with
  | graft t => exact h.graft tidy t
  | detach id => exact h.detach id
  | remove id => exact h.remove id
  | relabel hd => exact h.relabelled hd

theorem Insertable.way_up {p c : NodeId} (hpc : d.Insertable p c) (before : Option NodeId)
    (hno : ¬ Relation.ReflTransGen d.IsParent p c) {y z : NodeId}
    (hyz : Relation.TransGen (d.insertBefore p c before).IsParent y z) :
    Relation.TransGen d.IsParent y z ∨
      (Relation.ReflTransGen d.IsParent y c ∧ Relation.ReflTransGen d.IsParent p z) := by
  have hstep : ∀ {x q}, (d.insertBefore p c before).IsParent x q →
      (x = c ∧ q = p) ∨ d.IsParent x q := by
    intro x q hxq
    rw [IsParent, hpc.parent?_insertBefore] at hxq
    by_cases hx : x = c
    · rw [if_pos hx] at hxq
      exact .inl ⟨hx, (Option.some.inj hxq).symm⟩
    · rw [if_neg hx] at hxq
      exact .inr hxq
  induction hyz with
  | single hyq =>
    rcases hstep hyq with ⟨rfl, rfl⟩ | hold
    · exact .inr ⟨.refl, .refl⟩
    · exact .inl (.single hold)
  | @tail w z _ hwz ih =>
    rcases ih with hold | ⟨hyc, hpw⟩
    · rcases hstep hwz with ⟨rfl, rfl⟩ | hwz
      · exact .inr ⟨hold.to_reflTransGen, .refl⟩
      · exact .inl (hold.tail hwz)
    · rcases hstep hwz with ⟨rfl, rfl⟩ | hwz
      · exact absurd hpw hno
      · exact .inr ⟨hyc, hpw.tail hwz⟩

/-- An insertion keeps a forest exactly if its child is not above its parent. -/
theorem IsForest.insertBefore_iff (h : d.IsForest) (p c : NodeId) (before : Option NodeId) :
    (d.insertBefore p c before).IsForest ↔ ¬ Relation.TransGen d.IsParent p c := by
  by_cases hpc : d.Insertable p c
  · constructor
    · intro hforest hup
      -- the old way up from the parent to the child never leaves the child, so it is still there
      have hkept : ∀ {y}, Relation.TransGen d.IsParent y c →
          Relation.TransGen (d.insertBefore p c before).IsParent y c := by
        intro y hy
        have hlink : ∀ {x q}, Relation.TransGen d.IsParent x c → d.IsParent x q →
            (d.insertBefore p c before).IsParent x q := by
          intro x q hx hxq
          have hne : x ≠ c := fun e => h.acyclic c (e ▸ hx)
          rwa [IsParent, hpc.parent?_insertBefore, if_neg hne]
        induction hy using Relation.TransGen.head_induction_on with
        | single hyc => exact .single (hlink (.single hyc) hyc)
        | head hyz hzc ih => exact .head (hlink (.head hyz hzc) hyz) ih
      have hback : (d.insertBefore p c before).IsParent c p := by
        rw [IsParent, hpc.parent?_insertBefore, if_pos rfl]
      exact hforest.acyclic p ((hkept hup).tail hback)
    · intro hno
      have hapart : ¬ Relation.ReflTransGen d.IsParent p c := by
        rw [Relation.reflTransGen_iff_eq_or_transGen, not_or]
        exact ⟨Ne.symm hpc.ne, hno⟩
      have hl := h.toLinked.insertBefore p c before
      refine ⟨hl.linked, hl.nodup, fun x hx => ?_⟩
      rcases hpc.way_up before hapart hx with hold | ⟨hxc, hpx⟩
      · exact h.acyclic x hold
      · exact hapart (hpx.trans hxc)
  · rw [insertBefore_of_not_insertable hpc]
    refine ⟨fun _ hup => hpc ⟨?_, ?_, ?_⟩, fun _ => h⟩
    · obtain ⟨q, hq, -⟩ := Relation.TransGen.head'_iff.mp hup
      exact IsForest.live_of_isParent hq
    · obtain ⟨q, -, hq⟩ := Relation.TransGen.tail'_iff.mp hup
      exact h.toLinked.parent_live hq
    · rintro rfl
      exact h.acyclic p hup

end Document

namespace Edit

/-- The edit puts a node below one that it is above of. -/
def ClosesLoop (d : Document) (e : Edit) : Prop :=
  ∃ p c, e.insertion? = some (p, c) ∧ Relation.TransGen d.IsParent p c

def LoopFree : Document → List Edit → Prop
  | _, [] => True
  | d, e :: rest => ¬ e.ClosesLoop d ∧ LoopFree (e.apply d).1 rest

theorem not_closesLoop_of_not_insertion {d : Document} {e : Edit} (h : e.insertion? = none) :
    ¬ e.ClosesLoop d := by
  rintro ⟨p, c, hp, -⟩
  rw [h] at hp
  cases hp

end Edit

namespace Document

variable {d : Document}

theorem IsForest.apply_iff (h : d.IsForest) (tidy : d.Tidy) (e : Edit) :
    (e.apply d).1.IsForest ↔ ¬ e.ClosesLoop d := by
  rcases e.apply_cases d with ⟨p, c, before, hins, he⟩ | ⟨hins, hd⟩
  · rw [he, h.insertBefore_iff, Edit.ClosesLoop, hins]
    simp
  · exact ⟨fun _ => Edit.not_closesLoop_of_not_insertion hins, fun _ => h.change tidy hd⟩

/-! ### Ways through a forest -/

theorem IsForest.parentInduction (h : d.IsForest) {motive : NodeId → Prop}
    (step : ∀ c, (∀ p, d.IsParent c p → motive p) → motive c) (c : NodeId) : motive c := by
  let above : Fin d.slots.size → Fin d.slots.size → Prop := fun p c =>
    Relation.TransGen d.IsParent c p
  have : IsTrans (Fin d.slots.size) above := ⟨fun _ _ _ hab hbc => hbc.trans hab⟩
  have : Std.Irrefl above := ⟨fun x hx => h.acyclic x hx⟩
  have hwf : WellFounded above := Finite.wellFounded_of_trans_of_irrefl above
  have hinside : ∀ c : Fin d.slots.size, motive c := fun c => by
    induction c using hwf.induction with
    | _ c ih =>
      refine step c fun p hp => ?_
      obtain ⟨n, hn⟩ := h.toLinked.parent_live hp
      exact ih ⟨p, lt_size_of_node? hn⟩ (.single hp)
  by_cases hc : c < d.slots.size
  · exact hinside ⟨c, hc⟩
  · refine step c fun p hp => ?_
    obtain ⟨n, hn⟩ := IsForest.live_of_isParent hp
    exact absurd (lt_size_of_node? hn) hc

theorem IsForest.exists_root (h : d.IsForest) {id : NodeId} (hlive : d.contains id = true) :
    ∃ r, Relation.ReflTransGen d.IsParent id r ∧ d.contains r = true ∧ d.parent? r = none := by
  induction id using h.parentInduction with
  | step c ih =>
    cases hp : d.parent? c with
    | none => exact ⟨c, .refl, hlive, hp⟩
    | some p =>
      obtain ⟨r, hup, hr⟩ := ih p hp (contains_iff.mpr (h.toLinked.parent_live hp))
      exact ⟨r, .head hp hup, hr⟩

inductive Climbs (d : Document) : Nat → NodeId → Prop where
  | root {id : NodeId} (h : d.parent? id = none) : Climbs d 0 id
  | up {k : Nat} {c p : NodeId} (h : d.IsParent c p) (rest : Climbs d k p) : Climbs d (k + 1) c

/-- A node of a shape is fewer links above its root than the shape has nodes. -/
theorem Holds.exists_climbs {parent : Option NodeId} {s : Shape} (hs : d.Holds parent s) {j : Nat}
    (hj : d.Climbs j s.id) {x : NodeId} (hx : x ∈ s.ids) :
    ∃ k, d.Climbs k x ∧ k < j + s.ids.length := by
  induction hs generalizing j with
  | @node parent id cs l read below ih =>
    rw [Shape.ids_node, List.mem_cons, List.mem_flatMap] at hx
    rcases hx with rfl | ⟨c, hc, hx⟩
    · exact ⟨j, hj, by simp [Shape.ids_node]⟩
    · have hup : d.Climbs (j + 1) c.id := .up (below c hc).parent?_eq hj
      obtain ⟨k, hk, hlt⟩ := ih c hc hup hx
      have := Shape.length_ids_lt id hc
      exact ⟨k, hk, by omega⟩

theorem IsForest.exists_climbs (h : d.IsForest) {id : NodeId} (hlive : d.contains id = true) :
    ∃ k, d.Climbs k id ∧ k < d.slots.size := by
  obtain ⟨r, hup, hr, hroot⟩ := h.exists_root hlive
  obtain ⟨s, parent, rfl, hs, hn⟩ := h.exists_holds hr
  have hmem : id ∈ s.ids := by
    refine hs.mem_ids_iff.mpr (Relation.ReflTransGen.mono (fun c p hcp => ?_) _ _ hup)
    exact ⟨hcp, (h.linked c p).mpr hcp⟩
  obtain ⟨k, hk, hlt⟩ := hs.exists_climbs (.root hroot) hmem
  have hsize := hs.length_ids_le hn
  exact ⟨k, hk, by omega⟩

/-- Once the way up has ended, more steps find no more frames. -/
theorem Climbs.framesTo?_eq {k : Nat} {id : NodeId} (h : d.Climbs k id) (root : NodeId)
    {m n : Nat} (hm : k < m) (hn : k < n) (frames : List Frame) :
    d.framesTo? root m id frames = d.framesTo? root n id frames := by
  induction h generalizing m n frames with
  | @root id hp =>
    obtain ⟨m, rfl⟩ := Nat.exists_eq_add_of_lt hm
    obtain ⟨n, rfl⟩ := Nat.exists_eq_add_of_lt hn
    rw [framesTo?, framesTo?]
    split
    · rfl
    · split
      · rename_i l parent cs hread
        rw [parent?_of_node? hread] at hp
        cases hp
      · rfl
  | @up k c p hcp _ ih =>
    obtain ⟨m, rfl⟩ := Nat.exists_eq_add_of_lt hm
    obtain ⟨n, rfl⟩ := Nat.exists_eq_add_of_lt hn
    rw [framesTo?, framesTo?]
    split
    · rfl
    · split
      · rename_i l parent cs hread
        rw [IsParent, parent?_of_node? hread] at hcp
        cases hcp
        exact ih (by omega) (by omega) _
      · rfl

/-- Every way through the document that starts at the node comes to an end: more steps than there
are slots find nothing more. -/
structure Traversable (d : Document) (id : NodeId) : Prop where
  /-- The way up ends at a live root. -/
  root : ∃ r, Relation.ReflTransGen d.IsParent id r ∧ d.contains r = true ∧ d.parent? r = none
  descendants : ∀ steps, d.slots.size ≤ steps → walk d.children steps [id] = d.descendants id
  /-- The tree that markup is made of and that imports copy. -/
  tree : ∃ t, ∀ depth, d.slots.size ≤ depth → d.treeWithin depth id = some t
  path : ∀ root steps frames, d.slots.size ≤ steps →
    d.framesTo? root steps id frames = d.framesTo? root (d.slots.size + 1) id frames

theorem IsForest.traversable (h : d.IsForest) {id : NodeId} (hlive : d.contains id = true) :
    d.Traversable id := by
  have hroot := h.exists_root hlive
  obtain ⟨k, hk, hlt⟩ := h.exists_climbs hlive
  obtain ⟨s, parent, rfl, hs, hn⟩ := h.exists_holds hlive
  have hsize := hs.length_ids_le hn
  refine ⟨hroot, fun steps hsteps => ?_, ⟨d.treeAt s, fun depth hdepth => ?_⟩,
    fun root steps frames hsteps => ?_⟩
  · have hheld : ∀ t ∈ [s], ∃ parent, d.Holds parent t := by simpa using ⟨parent, hs⟩
    have hwalk := walk_children steps hheld (by simpa using Nat.le_trans hsize hsteps)
    rw [hs.descendants hn]
    simpa using hwalk
  · exact hs.treeWithin (Nat.le_trans hsize hdepth)
  · exact hk.framesTo?_eq root (by omega) (by omega) frames

/-! ### Runs of edits -/

/-- All documents on the way are forests exactly if no edit closes a loop. -/
theorem IsForest.run_iff (h : d.IsForest) (hd : d.Consistent) (edits : List Edit) :
    (∀ before, before <+: edits → (Edit.run d before).IsForest) ↔ Edit.LoopFree d edits := by
  induction edits generalizing d with
  | nil =>
    refine ⟨fun _ => trivial, fun _ before hbefore => ?_⟩
    rw [List.prefix_nil.mp hbefore]
    exact h
  | cons e edits ih =>
    rw [Edit.LoopFree, ← h.apply_iff hd.tidy e]
    constructor
    · intro hall
      have hfirst : (e.apply d).1.IsForest := hall [e] (List.prefix_append [e] edits)
      refine ⟨hfirst, (ih hfirst (hd.apply e)).mp fun before hbefore => ?_⟩
      exact hall (e :: before) (List.cons_prefix_cons.mpr ⟨rfl, hbefore⟩)
    · rintro ⟨hfirst, hrest⟩ before hbefore
      rcases List.prefix_cons_iff.mp hbefore with rfl | ⟨later, rfl, hlater⟩
      · exact h
      · exact (ih hfirst (hd.apply e)).mpr hrest later hlater

/-- The documents that edits lead through are forests exactly if no edit closes a loop. Then every
way through the last one comes to an end. -/
theorem forest_run (edits : List Edit) :
    ((∀ before, before <+: edits → (Edit.run .empty before).IsForest) ↔
      Edit.LoopFree .empty edits) ∧
    (Edit.LoopFree .empty edits →
      (Edit.run .empty edits).IsForest ∧
      ∀ id, (Edit.run .empty edits).contains id = true →
        (Edit.run .empty edits).Traversable id) := by
  have hiff := isForest_empty.run_iff consistent_empty edits
  refine ⟨hiff, fun hfree => ?_⟩
  have hforest := hiff.mpr hfree edits (List.prefix_refl _)
  exact ⟨hforest, fun id hlive => hforest.traversable hlive⟩

/-- An element is put below another one, and its own child goes with it. Then the child is put
before it. -/
def nestingEdits : List Edit :=
  [.createElement "a", .createElement "b", .createText "c", .append 1 2, .append 0 1,
    .insertBefore 0 2 (some 1)]

theorem forest_run_nesting :
    Edit.LoopFree .empty nestingEdits ∧ (Edit.run .empty nestingEdits).children 0 = [2, 1] ∧
      (Edit.run .empty nestingEdits).Traversable 2 := by
  -- the parent of each insertion is a root
  have hroot : ∀ {d : Document} {p c : NodeId}, d.parent? p = none →
      ¬ Relation.TransGen d.IsParent p c := by
    intro d p c hp hup
    obtain ⟨q, hq, -⟩ := Relation.TransGen.head'_iff.mp hup
    rw [IsParent, hp] at hq
    cases hq
  have hinsert : ∀ {d : Document} {e : Edit} {p c : NodeId}, e.insertion? = some (p, c) →
      d.parent? p = none → ¬ e.ClosesLoop d := by
    rintro d e p c he hp ⟨p', c', he', hup⟩
    obtain ⟨rfl, rfl⟩ := Prod.mk.inj (Option.some.inj (he.symm.trans he'))
    exact hroot hp hup
  have hfree : Edit.LoopFree .empty nestingEdits :=
    ⟨Edit.not_closesLoop_of_not_insertion rfl, Edit.not_closesLoop_of_not_insertion rfl,
      Edit.not_closesLoop_of_not_insertion rfl, hinsert rfl rfl, hinsert rfl rfl,
      hinsert rfl rfl, trivial⟩
  exact ⟨hfree, rfl, ((forest_run nestingEdits).2 hfree).2 2 rfl⟩

def loopEdits : List Edit :=
  [.createElement "a", .createElement "b", .append 0 1, .append 1 0]

theorem not_isForest_run_loop :
    ¬ (Edit.run .empty loopEdits).IsForest ∧ Document.roots (Edit.run .empty loopEdits) = [] := by
  refine ⟨fun h => h.acyclic 0 ?_, by decide⟩
  have hup : (Edit.run .empty loopEdits).IsParent 0 1 := rfl
  have hback : (Edit.run .empty loopEdits).IsParent 1 0 := rfl
  exact .head hup (.single hback)

end Document

end LiveMarkup
