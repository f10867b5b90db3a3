import LiveMarkup.Proofs.Blueprint.Closure
import LiveMarkup.Proofs.Document.ShapeEdits
import LiveMarkup.Proofs.Template.Expansion

/-!
# Filled views in a document

A document shows a filled view when the label at each mark has the values, the other labels are those
of the skeleton, and behind the children of each anchor stand the copies of its regions. The live
values of form controls are not part of the markup and are left out.
-/

namespace LiveMarkup

open CompileContext Site

def Label.bare (l : Label) : Label := { l with control := none }

namespace Tree

mutual

/-- The tree without the live values of form controls. -/
def bare : Tree → Tree
  | .node l ts => .node l.bare (bareAll ts)

def bareAll : List Tree → List Tree
  | [] => []
  | t :: ts => bare t :: bareAll ts

end

theorem bareAll_eq (ts : List Tree) : bareAll ts = ts.map bare := by
  induction ts with
  | nil => rfl
  | cons t ts ih => rw [bareAll, ih, List.map_cons]

theorem bare_node (l : Label) (ts : List Tree) : bare (.node l ts) = .node l.bare (ts.map bare) := by
  rw [bare, bareAll_eq]

mutual

theorem renderIn_bare (raw : Bool) : ∀ t : Tree, renderIn raw t.bare = renderIn raw t
  | .node ⟨.element name, _, _⟩ ts => by
    rw [bare, Label.bare, renderIn, renderIn, renderAll_bare _ ts]
  | .node ⟨.text value, _, _⟩ ts => by rw [bare, Label.bare, renderIn, renderIn]
  | .node ⟨.comment value, _, _⟩ ts => by rw [bare, Label.bare, renderIn, renderIn]

theorem renderAll_bare (raw : Bool) : ∀ ts : List Tree, renderAll raw (bareAll ts) = renderAll raw ts
  | [] => rfl
  | t :: ts => by rw [bareAll, renderAll, renderAll, renderIn_bare raw t, renderAll_bare raw ts]

end

theorem render_eq_of_bare {t u : Tree} (h : t.bare = u.bare) : t.render = u.render := by
  rw [render, render, ← renderIn_bare false t, h, renderIn_bare]

end Tree

namespace CompileContext

def markLabel (ctx : CompileContext) (value? : String → Option Json) : Mark → Label
  | .text name => .text (((value? name).map Json.toText).getD "")
  | .attributes l => ctx.shownLabel value? l

def copiesOf (ctx : CompileContext) (v : Scope) (g : Anchored) : List Tree :=
  (v.items g.name).map fun item => (ctx.fillView g.label g.parts item).bare

variable (ctx : CompileContext) (v : Scope) (d : Document) (more : NodeId → List Shape)

mutual

/-- The site shows its part in the document. -/
def Displays : Site → Prop
  | .fixed t s => d.treeAt s = t ∧ ∀ x ∈ s.ids, more x = []
  | .slot id name => (d.labelAt id).bare = (ctx.markLabel v.value? (.text name)).bare ∧ more id = []
  | .element id l ss => (d.labelAt id).bare = (ctx.markLabel v.value? (.attributes l)).bare ∧
      (more id).map (fun t => (d.treeAt t).bare) = (ctx.batchAll v (Site.parts ss)).map Tree.bare ∧
      DisplaysAll ss
  | .region _ _ _ => True

def DisplaysAll : List Site → Prop
  | [] => True
  | s :: ss => Displays s ∧ DisplaysAll ss

end

variable {ctx v d more}

theorem bare_treeAt_extendBy (id : NodeId) (cs : List Shape) :
    (d.treeAt ((Shape.node id cs).extendBy more)).bare = .node (d.labelAt id).bare
      (cs.map (fun c => (d.treeAt (c.extendBy more)).bare) ++
        (more id).map fun t => (d.treeAt t).bare) := by
  rw [Shape.extendBy_node, Document.treeAt_node, Tree.bare_node, List.map_map, List.map_append,
    List.map_map]
  rfl

mutual

theorem Displays.bare_shapes : ∀ s : Site, Displays ctx v d more s →
    s.shapes.map (fun c => (d.treeAt (c.extendBy more)).bare) = (ctx.fill v s.part).map Tree.bare
  | .fixed t s, h => by
    obtain ⟨htree, hnone⟩ := h
    rw [shapes, List.map_singleton, part, fill, List.map_singleton, Shape.extendBy_congr hnone,
      Shape.extendBy_nothing, htree]
  | .slot id name, h => by
    obtain ⟨hlabel, hnone⟩ := h
    rw [shapes, List.map_singleton, part, fill, List.map_singleton, bare_treeAt_extendBy, hnone,
      hlabel, Tree.leaf, Tree.bare_node]
    rfl
  | .element id l ss, h => by
    obtain ⟨hlabel, hcopies, hbelow⟩ := h
    rw [shapes, List.map_singleton, part, fill, List.map_singleton, bare_treeAt_extendBy, hlabel,
      hcopies, DisplaysAll.bare_shapesAll ss hbelow, Tree.bare_node, List.map_append]
    rfl
  | .region _ _ _, _ => rfl

theorem DisplaysAll.bare_shapesAll : ∀ ss : List Site, DisplaysAll ctx v d more ss →
    (shapesAll ss).map (fun c => (d.treeAt (c.extendBy more)).bare) =
      (ctx.fillAll v (Site.parts ss)).map Tree.bare
  | [], _ => rfl
  | s :: ss, h => by
    rw [shapesAll, List.map_append, Site.parts, fillAll, List.map_append, Displays.bare_shapes s h.1,
      DisplaysAll.bare_shapesAll ss h.2]

end

theorem copies_anchoredAll {x : NodeId} {ss : List Site}
    (hn : (x :: (shapesAll ss).flatMap Shape.ids).Nodup) :
    ((anchoredAll x ss).filter (·.anchor = x)).flatMap (ctx.copiesOf v) =
      (ctx.batchAll v (Site.parts ss)).map Tree.bare := by
  induction ss with
  | nil => rfl
  | cons s ss ih =>
    rw [shapesAll, List.flatMap_append] at hn
    have hrest : (x :: (shapesAll ss).flatMap Shape.ids).Nodup :=
      ((List.sublist_append_right _ _).cons_cons x).nodup hn
    rw [anchoredAll, List.filter_append, List.flatMap_append, ih hrest, Site.parts, batchAll,
      List.map_append]
    congr 1
    cases s with
    | fixed t s => rfl
    | slot id name => rfl
    | element id l ss' =>
      have hnone : (anchored x (.element id l ss')).filter (·.anchor = x) = [] := by
        rw [List.filter_eq_nil_iff]
        intro a ha
        rw [decide_eq_true_eq]
        intro e
        rw [List.nodup_cons] at hn
        apply hn.1
        rw [List.mem_append, shapes, List.flatMap_singleton, Shape.ids_node, List.mem_cons]
        rcases anchor_mem_all ss' a ha with h | h
        · exact .inl (.inl (e ▸ h))
        · exact .inl (.inr (e ▸ h))
      rw [hnone]
      rfl
    | region name l ps =>
      have hself : (anchored x (.region name l ps)).filter (·.anchor = x) = [⟨name, x, l, ps⟩] := by
        simp [anchored]
      rw [hself, List.flatMap_singleton, copiesOf, part, batch, List.map_map]
      rfl

/-- The document shows a view with values: `d₁` has its skeleton, `ms` are its marks and `gs` its
regions. -/
structure Showing (ctx : CompileContext) (v : Scope) (ids : List NodeId) (ms : List (NodeId × Mark))
    (gs : List Anchored) (d₁ d : Document) (more : NodeId → List Shape) : Prop where
  marked : ∀ m ∈ ms, (d.labelAt m.1).bare = (ctx.markLabel v.value? m.2).bare
  unmarked : ∀ x ∈ ids, x ∉ ms.map (·.1) → d.label? x = d₁.label? x
  copied : ∀ x ∈ ids, (more x).map (fun t => (d.treeAt t).bare) =
    (gs.filter (·.anchor = x)).flatMap (ctx.copiesOf v)

theorem filter_anchored_eq_nil {p x : NodeId} {s : Site} (hp : x ≠ p)
    (hx : x ∉ s.shapes.flatMap Shape.ids) : (anchored p s).filter (·.anchor = x) = [] := by
  rw [List.filter_eq_nil_iff]
  intro a ha
  rw [decide_eq_true_eq]
  rintro rfl
  rcases anchor_mem s a ha with h | h
  · exact hp h
  · exact hx h

theorem filter_anchoredAll_eq_nil {p x : NodeId} {ss : List Site} (hp : x ≠ p)
    (hx : x ∉ (shapesAll ss).flatMap Shape.ids) :
    (anchoredAll p ss).filter (·.anchor = x) = [] := by
  rw [List.filter_eq_nil_iff]
  intro a ha
  rw [decide_eq_true_eq]
  rintro rfl
  rcases anchor_mem_all ss a ha with h | h
  · exact hp h
  · exact hx h

mutual

theorem Showing.displays {ids : List NodeId} {ms : List (NodeId × Mark)} {gs : List Anchored}
    {d₁ : Document} (h : Showing ctx v ids ms gs d₁ d more) {p : NodeId} : ∀ s : Site,
    (p :: s.shapes.flatMap Shape.ids).Nodup → s.shapes.flatMap Shape.ids ⊆ ids →
    (∀ m ∈ s.marks, m ∈ ms) →
    (∀ x ∈ s.shapes.flatMap Shape.ids, x ∈ ms.map (·.1) → x ∈ s.marks.map (·.1)) →
    (∀ x ∈ s.shapes.flatMap Shape.ids,
      gs.filter (·.anchor = x) = (anchored p s).filter (·.anchor = x)) →
    s.shapes.map d₁.treeAt = CompileContext.trees s.part → Displays ctx v d more s
  | .fixed t c, _, hids, _, hmarks, hregions, htrees => by
    rw [shapes, List.flatMap_singleton] at hids hmarks hregions
    refine ⟨?_, fun x hx => ?_⟩
    · have hsame : d.treeAt c = d₁.treeAt c := Document.treeAt_congr fun x hx =>
        h.unmarked x (hids hx) fun hmem => by cases hmarks x hx hmem
      rw [hsame]
      exact (List.cons.inj htrees).1
    · have hnone := h.copied x (hids hx)
      rw [hregions x hx] at hnone
      exact List.map_eq_nil_iff.mp hnone
  | .slot id name, _, hids, hsub, _, hregions, _ => by
    have hid : id ∈ (Site.slot id name).shapes.flatMap Shape.ids := by
      rw [shapes, List.flatMap_singleton]
      exact Shape.id_mem_ids (.node id [])
    refine ⟨h.marked _ (hsub _ List.mem_cons_self), ?_⟩
    have hnone := h.copied id (hids hid)
    rw [hregions id hid] at hnone
    exact List.map_eq_nil_iff.mp hnone
  | .element id l ss, hn, hids, hsub, hmarks, hregions, htrees => by
    have hshapes : (Site.element id l ss).shapes.flatMap Shape.ids =
        id :: (shapesAll ss).flatMap Shape.ids := by
      rw [shapes, List.flatMap_singleton, Shape.ids_node]
    rw [hshapes] at hn hids hmarks hregions
    have hbelow : (id :: (shapesAll ss).flatMap Shape.ids).Nodup := (List.nodup_cons.mp hn).2
    have htree := (List.cons.inj htrees).1
    rw [Document.treeAt_node, Tree.node.injEq] at htree
    refine ⟨h.marked _ (hsub _ List.mem_cons_self), ?_, ?_⟩
    · rw [h.copied id (hids List.mem_cons_self), hregions id List.mem_cons_self]
      exact copies_anchoredAll hbelow
    · refine Showing.displaysAll h ss hbelow (fun x hx => hids (List.mem_cons_of_mem _ hx))
        (fun m hm => hsub m (List.mem_cons_of_mem _ hm)) (fun x hx hmem => ?_)
        (fun x hx => hregions x (List.mem_cons_of_mem _ hx)) htree.2
      have hmark := hmarks x (List.mem_cons_of_mem _ hx) hmem
      rw [marks, List.map_cons, List.mem_cons] at hmark
      refine hmark.resolve_left fun e : x = id => ?_
      exact (List.nodup_cons.mp hbelow).1 (e ▸ hx)
  | .region _ _ _, _, _, _, _, _, _ => trivial

theorem Showing.displaysAll {ids : List NodeId} {ms : List (NodeId × Mark)} {gs : List Anchored}
    {d₁ : Document} (h : Showing ctx v ids ms gs d₁ d more) {p : NodeId} : ∀ ss : List Site,
    (p :: (shapesAll ss).flatMap Shape.ids).Nodup → (shapesAll ss).flatMap Shape.ids ⊆ ids →
    (∀ m ∈ marksAll ss, m ∈ ms) →
    (∀ x ∈ (shapesAll ss).flatMap Shape.ids, x ∈ ms.map (·.1) → x ∈ (marksAll ss).map (·.1)) →
    (∀ x ∈ (shapesAll ss).flatMap Shape.ids,
      gs.filter (·.anchor = x) = (anchoredAll p ss).filter (·.anchor = x)) →
    (shapesAll ss).map d₁.treeAt = treesAll (Site.parts ss) → DisplaysAll ctx v d more ss
  | [], _, _, _, _, _, _ => trivial
  | s :: ss, hn, hids, hsub, hmarks, hregions, htrees => by
    rw [shapesAll, List.flatMap_append] at hn hids hmarks hregions
    rw [List.nodup_cons, List.nodup_append, List.mem_append, not_or] at hn
    obtain ⟨⟨hps, hpss⟩, hns, hnss, hdisj⟩ := hn
    have hlen : (s.shapes.map d₁.treeAt).length = (CompileContext.trees s.part).length := by
      cases s <;> rfl
    rw [shapesAll, List.map_append, Site.parts, treesAll] at htrees
    obtain ⟨hfirst, hrest⟩ := List.append_inj htrees hlen
    refine ⟨Showing.displays h s (List.nodup_cons.mpr ⟨hps, hns⟩)
      (fun x hx => hids (List.mem_append_left _ hx))
      (fun m hm => hsub m (List.mem_append_left _ hm)) (fun x hx hmem => ?_) (fun x hx => ?_) hfirst,
      Showing.displaysAll h ss (List.nodup_cons.mpr ⟨hpss, hnss⟩)
      (fun x hx => hids (List.mem_append_right _ hx))
      (fun m hm => hsub m (List.mem_append_right _ hm)) (fun x hx hmem => ?_) (fun x hx => ?_) hrest⟩
    · have hmark := hmarks x (List.mem_append_left _ hx) hmem
      rw [marksAll, List.map_append, List.mem_append] at hmark
      exact hmark.resolve_right fun hm =>
        hdisj x hx x ((marksAll_sublist ss).subset hm) rfl
    · rw [hregions x (List.mem_append_left _ hx), anchoredAll, List.filter_append,
        filter_anchoredAll_eq_nil (fun e : x = p => hps (e ▸ hx)) fun hm => hdisj x hx x hm rfl,
        List.append_nil]
    · have hmark := hmarks x (List.mem_append_right _ hx) hmem
      rw [marksAll, List.map_append, List.mem_append] at hmark
      exact hmark.resolve_left fun hm => hdisj x ((marks_sublist s).subset hm) x hx rfl
    · rw [hregions x (List.mem_append_right _ hx), anchoredAll, List.filter_append,
        filter_anchored_eq_nil (fun e : x = p => hpss (e ▸ hx)) fun hm => hdisj x hm x hx rfl,
        List.nil_append]

end

theorem Showing.bare_treeAt {d₁ : Document} {id : NodeId} {l : Label} {ss : List Site}
    {data : Json} (h : Showing ctx (scopeOf data (driversAll (Site.parts ss)))
      (Shape.node id (shapesAll ss)).ids (Document.Exhibits.allMarks id l ss) (anchoredAll id ss) d₁ d
      more) (he : d₁.Exhibits id l ss) :
    (d.treeAt ((Shape.node id (shapesAll ss)).extendBy more)).bare =
      (ctx.fillView l (Site.parts ss) data).bare := by
  have hnodup : (id :: (shapesAll ss).flatMap Shape.ids).Nodup := by
    rw [← Shape.ids_node]
    exact he.nodup
  have hdisplays : DisplaysAll ctx (scopeOf data (driversAll (Site.parts ss))) d more ss := by
    refine h.displaysAll (p := id) ss hnodup (fun x hx => ?_)
      (fun m hm => List.mem_cons_of_mem _ hm) (fun x hx hmem => ?_) (fun _ _ => rfl) he.trees
    · rw [Shape.ids_node]
      exact List.mem_cons_of_mem _ hx
    · rw [Document.Exhibits.allMarks, List.map_cons, List.mem_cons] at hmem
      exact hmem.resolve_left fun e : x = id => (List.nodup_cons.mp hnodup).1 (e ▸ hx)
  have hroot := h.marked (id, .attributes l) List.mem_cons_self
  have hcopies := h.copied id (Shape.id_mem_ids _)
  rw [copies_anchoredAll hnodup] at hcopies
  rw [bare_treeAt_extendBy, hroot, hcopies, hdisplays.bare_shapesAll, fillView, Tree.bare_node,
    List.map_append]
  rfl

end CompileContext

end LiveMarkup
