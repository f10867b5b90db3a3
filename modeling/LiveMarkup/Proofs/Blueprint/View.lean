import LiveMarkup.Proofs.Blueprint.Places
import LiveMarkup.Proofs.Blueprint.Records
import LiveMarkup.Proofs.Document.Graft

/-!
# Views

A view is what the parts of a template, or of a region in it, amount to. Each region of a view is
again a view, and in every copy of a view's skeleton its records and regions are found at the sites
of its parts.
-/

namespace LiveMarkup

open CompileContext Site

/-- The blueprint is the view of the parts `ps` inside an element with label `l`. -/
structure IsView (ctx : CompileContext) (l : Label) (ps : List Part) (b : Blueprint) : Prop where
  sound : SoundView l ps
  skeleton : b.skeleton = .node l.blanked (treesAll ps)
  properties : ∃ start : Table (List BindingRecord), start.names.Nodup ∧
    (∀ e ∈ start.entries, e.2 = []) ∧ b.properties = recordTable start (ctx.viewRecords l ps)
  regions : b.regions = ⟨ctx.regionsAll .root [] ps⟩

theorem regionTable_regionsAll (ctx : CompileContext) {ps : List Part} (h : (driversAll ps).Nodup) :
    regionTable .empty (ctx.regionsAll .root [] ps) = ⟨ctx.regionsAll .root [] ps⟩ :=
  regionTable_of_nodup (by rwa [names_regionsAll])

/-- The view with properties `names`, bound or not, before those that are found. -/
def CompileContext.viewWith (ctx : CompileContext) (names : List String) (targetClass : String)
    (l : Label) (ps : List Part) : Blueprint :=
  ⟨.node l.blanked (treesAll ps), recordTable ⟨names.map fun name => (name, [])⟩ (ctx.viewRecords l ps),
    regionTable .empty (ctx.regionsAll .root [] ps), targetClass⟩

theorem isView_viewWith (ctx : CompileContext) {names : List String} (targetClass : String) {l : Label}
    {ps : List Part} (h : SoundView l ps) (hn : names.Nodup) :
    IsView ctx l ps (ctx.viewWith names targetClass l ps) := by
  refine ⟨h, rfl, ⟨_, ?_, ?_, rfl⟩, regionTable_regionsAll ctx h.drivers⟩
  · simpa [Table.names, Function.comp_def] using hn
  · simp

theorem isView_view (ctx : CompileContext) {l : Label} {ps : List Part} (h : SoundView l ps) :
    IsView ctx l ps (ctx.view l ps) :=
  isView_viewWith ctx ctx.config.defaultClass h List.nodup_nil

theorem IsView.names_regions {ctx : CompileContext} {l : Label} {ps : List Part} {b : Blueprint}
    (h : IsView ctx l ps b) : b.regions.names = driversAll ps := by
  rw [h.regions, ← names_regionsAll ctx .root []]
  rfl

mutual

theorem regions_isView (ctx : CompileContext) (path : Path) (before : List Label) :
    ∀ p : Part, p.IsSound → ∀ g ∈ ctx.regions path before p,
      ∃ l ps, SoundView l ps ∧ g.2.view = ctx.view l ps
  | .fixed _, _ => by simp [CompileContext.regions]
  | .slot _, _ => by simp [CompileContext.regions]
  | .element l ps, h => by
    rw [CompileContext.regions]
    exact regionsAll_isView ctx _ _ ps h.2
  | .region name l ps, h => by
    intro g hg
    rw [CompileContext.regions, List.mem_singleton] at hg
    exact ⟨l, ps, ⟨h.1, h.2.2, h.2.1⟩, by rw [hg]; rfl⟩

theorem regionsAll_isView (ctx : CompileContext) (path : Path) (before : List Label) :
    ∀ ps : List Part, Part.AllSound ps → ∀ g ∈ ctx.regionsAll path before ps,
      ∃ l qs, SoundView l qs ∧ g.2.view = ctx.view l qs
  | [], _ => by simp [regionsAll]
  | p :: ps, h => by
    intro g hg
    rw [regionsAll, List.mem_append] at hg
    rcases hg with hg | hg
    · exact regions_isView ctx path before p h.1 g hg
    · exact regionsAll_isView ctx path _ ps h.2 g hg

end

namespace Blueprint

/-- The blueprint `v` is `b` or is inside it. -/
inductive Nests (b : Blueprint) : Blueprint → Prop where
  | self : Nests b b
  | inside {v : Blueprint} {name : String} {r : Region Blueprint} (outer : Nests b v)
      (region : (name, r) ∈ v.regions.entries) : Nests b r.view

end Blueprint

theorem IsView.nested {ctx : CompileContext} {l : Label} {ps : List Part} {b v : Blueprint}
    (h : IsView ctx l ps b) (hv : b.Nests v) : ∃ l ps, IsView ctx l ps v := by
  induction hv with
  | self => exact ⟨l, ps, h⟩
  | inside _ region ih =>
    obtain ⟨l, ps, hv⟩ := ih
    rw [hv.regions] at region
    obtain ⟨l', ps', hsound, hview⟩ := regionsAll_isView ctx .root [] ps hv.sound.parts _ region
    exact ⟨l', ps', hview ▸ isView_view ctx hsound⟩

/-- The document holds the skeleton of a view, with its root at `id` and the sites `ss`. -/
structure Document.Exhibits (d : Document) (id : NodeId) (l : Label) (ss : List Site) : Prop where
  holds : d.Holds none (.node id (shapesAll ss))
  nodup : (Shape.node id (shapesAll ss)).ids.Nodup
  label : d.label? id = some l.blanked
  trees : (shapesAll ss).map d.treeAt = treesAll (Site.parts ss)

/-- Every copy of a view's skeleton exhibits the view. -/
theorem IsView.exists_exhibits {ctx : CompileContext} {l : Label} {ps : List Part} {b : Blueprint}
    (h : IsView ctx l ps b) {d d' : Document} {s : Shape} (hc : d.Copies d' s b.skeleton) :
    ∃ ss, s = .node s.id (shapesAll ss) ∧ Site.parts ss = ps ∧ d'.Exhibits s.id l ss := by
  obtain ⟨id, cs⟩ := s
  have htree := hc.tree
  rw [h.skeleton, Document.treeAt_node, Tree.node.injEq] at htree
  obtain ⟨ss, rfl, rfl⟩ := exists_sitesAll d' ps cs htree.2
  have hlabel := Document.Shows.label? hc.holds (hc.tree.trans h.skeleton)
  exact ⟨ss, rfl, rfl, hc.holds, hc.nodup, hlabel, htree.2⟩

namespace Document.Exhibits

variable {d : Document} {id : NodeId} {l : Label} {ss : List Site} (ctx : CompileContext)

theorem decode?_eq (h : d.Exhibits id l ss) (p : Path) : d.decode? id p = d.follow? id p.frames :=
  h.holds.decode?_eq p

theorem shows (h : d.Exhibits id l ss) : d.Shows id [] ss :=
  ⟨fun _ hc => h.holds.child hc, h.trees, by simp⟩

def allMarks (id : NodeId) (l : Label) (ss : List Site) : List (NodeId × Mark) :=
  (id, .attributes l) :: marksAll ss

theorem allMarks_sublist (id : NodeId) (l : Label) (ss : List Site) :
    ((allMarks id l ss).map (·.1)).Sublist (Shape.node id (shapesAll ss)).ids := by
  rw [Shape.ids_node]
  exact (marksAll_sublist ss).cons_cons id

theorem nodup_allMarks (h : d.Exhibits id l ss) : ((allMarks id l ss).map (·.1)).Nodup :=
  (allMarks_sublist id l ss).nodup h.nodup

theorem located_viewRecords (h : d.Exhibits id l ss) (hs : SoundView l (Site.parts ss)) :
    (ctx.viewRecords l (Site.parts ss)).map (d.located id) =
      (places ctx (allMarks id l ss)).map found := by
  have hroot : d.follow? id Path.root.frames = some (.node id) := by rw [Path.root, follow?]
  rw [viewRecords, allMarks, places, List.flatMap_cons, List.map_append, List.map_append,
    located_attributeRecords ctx hroot hs.label h.label]
  congr 1
  exact located_recordsAll ctx hroot ss h.shows h.holds.children hs.parts

theorem located_viewRegions (h : d.Exhibits id l ss) :
    (ctx.regionsAll .root [] (Site.parts ss)).map (d.locatedRegion id) =
      (anchoredAll id ss).map (foundRegion ctx) := by
  have hroot : d.follow? id Path.root.frames = some (.node id) := by rw [Path.root, follow?]
  exact located_regionsAll ctx hroot ss h.shows h.holds.children

end Document.Exhibits

end LiveMarkup
