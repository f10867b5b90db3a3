import LiveMarkup.Proofs.Document.Within
import LiveMarkup.Proofs.Instance.Failing
import LiveMarkup.Proofs.Instance.Embedding
import LiveMarkup.Proofs.Markup.Grammar
import LiveMarkup.Proofs.Picture.Abstraction

namespace LiveMarkup

open CompileContext Document Site

/-- The values of form controls, node by node in document order. -/
def Tree.controls (t : Tree) : List (Option String) := t.labels.map Label.controlValue?

theorem Tree.controls_node (l : Label) (ts : List Tree) :
    (Tree.node l ts).controls = l.controlValue? :: ts.flatMap Tree.controls := by
  rw [controls, labels_node, List.map_cons, List.map_flatMap]
  rfl

theorem Document.Holds.labels_treeAt {d : Document} {parent : Option NodeId} {s : Shape}
    (h : d.Holds parent s) : s.ids.map d.label? = (d.treeAt s).labels.map some := by
  induction h with
  | @node parent id cs l read _ ih =>
    rw [Shape.ids_node, treeAt_node, Tree.labels_node, List.map_cons, List.map_cons, labelAt,
      label?_of_node? read, List.flatMap_map, List.map_flatMap, List.map_flatMap]
    congr 1
    exact List.flatMap_congr ih

theorem Document.Holds.controls {d : Document} {parent : Option NodeId} {s : Shape}
    (h : d.Holds parent s) (hn : s.ids.Nodup) :
    (d.descendants s.id).map d.controlValue? = (d.treeAt s).controls := by
  have hlabels := congrArg (List.map fun l : Option Label => l.bind Label.controlValue?) h.labels_treeAt
  rw [List.map_map, List.map_map] at hlabels
  rw [h.descendants hn]
  exact hlabels

namespace Instance

variable {d₀ d : Document} {as : List (String × Accessor Instance)} {own : Shape}
  {more : NodeId → List Shape} {i : Instance} {p : Picture}

namespace PictureOf

theorem treeAt_extendBy (hhung : ∀ x ∈ own.ids, List.Forall₂ (Hangs d i) (more x) (p.hung x))
    (hlabels : ∀ x ∈ own.ids, d.label? x = some (p.label x)) :
    d.treeAt (own.extendBy more) = p.treeOf own := by
  induction own with
  | node id cs ih =>
    have hid : id ∈ (Shape.node id cs).ids := Shape.id_mem_ids (.node id cs)
    have htrees : (more id).map d.treeAt = (p.hung id).map (·.2) := by
      rw [← List.forall₂_eq_eq_eq, List.forall₂_map_left_iff, List.forall₂_map_right_iff]
      exact (hhung id hid).imp fun t e hte => hte.1
    rw [Shape.extendBy_node, treeAt_node, Picture.treeOf_node, List.map_append, List.map_map, htrees,
      labelAt, hlabels id hid]
    congr 2
    exact List.map_congr_left fun c hc => ih c hc
      (fun x hx => hhung x (Shape.ids_subset_of_mem hc hx))
      fun x hx => hlabels x (Shape.ids_subset_of_mem hc hx)

theorem treeAt_within (hhung : ∀ x ∈ own.ids, List.Forall₂ (Hangs d i) (more x) (p.hung x))
    (hlabels : ∀ x ∈ own.ids, d.label? x = some (p.label x)) {k : Shape} (hk : k.Within own) :
    d.treeAt (k.extendBy more) = p.treeOf k :=
  treeAt_extendBy (fun x hx => hhung x (hk.ids_subset hx)) fun x hx => hlabels x (hk.ids_subset hx)

theorem tree?_within (h : PictureOf d₀ as own d i p) {k : Shape} (hk : k.Within own) :
    d.tree? k.id = some (p.treeOf k) := by
  obtain ⟨⟨more, hs, hhung⟩, hlabels, -⟩ := h
  obtain ⟨r, hr⟩ := hs.grown.head_holds.within (hk.extendBy more)
  rw [← Shape.id_extendBy more k, hr.tree? ((hk.extendBy more).nodup hs.grown.head_nodup),
    treeAt_within hhung hlabels hk]

theorem controls_within (h : PictureOf d₀ as own d i p) {k : Shape} (hk : k.Within own) :
    (d.descendants k.id).map d.controlValue? = (p.treeOf k).controls := by
  obtain ⟨⟨more, hs, hhung⟩, hlabels, -⟩ := h
  obtain ⟨r, hr⟩ := hs.grown.head_holds.within (hk.extendBy more)
  rw [← Shape.id_extendBy more k, hr.controls ((hk.extendBy more).nodup hs.grown.head_nodup),
    treeAt_within hhung hlabels hk]

theorem root_eq (h : PictureOf d₀ as own d i p) : i.root = own.id := by
  obtain ⟨⟨more, hs, -⟩, -, -⟩ := h
  exact hs.root

theorem tree? (h : PictureOf d₀ as own d i p) : d.tree? i.root = some (p.treeOf own) :=
  h.root_eq ▸ h.tree?_within .self

theorem render (h : PictureOf d₀ as own d i p) : i.render d = (p.treeOf own).render := by
  rw [Instance.render, Document.render, h.tree?]
  rfl

theorem controls (h : PictureOf d₀ as own d i p) :
    (d.descendants i.root).map d.controlValue? = (p.treeOf own).controls :=
  h.root_eq ▸ h.controls_within .self

end PictureOf

def alone (registry : Registry) (view : Blueprint) (item : Json) : Option Tree :=
  match build registry ⟨.empty, []⟩ view item with
  | (s, .ok i) => s.document.tree? i.root
  | (_, .error _) => none

theorem buildWithin_grows (registry : Registry) {view : Blueprint} (hb : view.IsCompiled) {depth : Nat}
    (hdepth : view.depth ≤ depth) : (buildWithin registry depth).Grows view (alone registry view) := by
  have halike : ∀ (s : Stage) (item : Json), s.document.Tidy → EndsAlike (fun i => [i]) s.document
      .empty (buildWithin registry depth s view item) (build registry ⟨.empty, []⟩ view item) :=
    fun s item hs => buildWithin_alike registry hb hdepth le_rfl s ⟨.empty, []⟩ item hs tidy_empty
  refine ⟨⟨fun {s s' item i} hs hbuild => ?_, fun {s s' item e} hs hbuild => ?_⟩,
    fun {s s' item e} hs hbuild => ?_⟩
  · have h := halike _ item hs
    rw [hbuild] at h
    unfold alone
    generalize build registry ⟨.empty, []⟩ view item = r at h
    cases h with
    | built lockstep =>
      obtain ⟨f, c, renamed, rfl⟩ := lockstep.exists_renamed
      have hheld := renamed.right.grown.holds _ List.mem_cons_self
      have hnodup := renamed.right.grown.nodup
      rw [List.map_singleton, List.flatMap_singleton] at hnodup
      refine ⟨c, renamed.left.root_eq, renamed.left.grown, ?_⟩
      dsimp only
      rw [root_rename, ← renamed.left.root_eq, ← Shape.id_rename f c, hheld.tree? hnodup,
        treeAt_rename fun x hx => renamed.labels x (by simpa using hx)]
  · have h := halike _ item hs
    rw [hbuild] at h
    generalize build registry ⟨.empty, []⟩ view item = r at h
    cases h with
    | failed _ lockstep =>
      obtain ⟨f, ss, renamed, -⟩ := lockstep.same
      obtain rfl : ss = [] := List.map_eq_nil_iff.mp renamed.left.roots
      exact renamed.left.grown
  · have h := halike _ item hs
    rw [hbuild] at h
    unfold alone
    generalize build registry ⟨.empty, []⟩ view item = r at h
    cases h with
    | failed _ lockstep => rfl

theorem build_grows (registry : Registry) {view : Blueprint} (hb : view.IsCompiled) :
    (build registry).Grows view (alone registry view) := by
  have hgrows := buildWithin_grows registry hb le_rfl
  exact ⟨⟨hgrows.addsTree.built, hgrows.addsTree.failed⟩, hgrows.fails⟩

/-- Assignments of values have made of the first picture that of the instance. -/
def PictureReached (registry : Registry) (as : List (String × Accessor Instance)) (own : Shape)
    (p₀ : Picture) (d : Document) (i : Instance) : Prop :=
  i.registry = registry ∧ ∃ values : List (String × Json), PictureOf .empty as own d i
    (Change.applyAll p₀ (values.map fun e => changeOf (alone registry) as e.1 e.2))

section PictureReached

variable {registry : Registry} {p₀ : Picture}

theorem PictureReached.assign {build : Build}
    (grows : ∀ n a view, (n, .iterating a view []) ∈ as → build.Grows view (alone registry view))
    (s : Stage) (i : Instance) (name : String) (v : Json)
    (h : PictureReached registry as own p₀ s.document i) :
    PictureReached registry as own p₀ (assignWith build s i name v).stage.document
      (assignWith build s i name v).self := by
  obtain ⟨hregistry, values, hpicture⟩ := h
  refine ⟨(confined_assignWith _ s i name v).registry.trans hregistry, values ++ [(name, v)], ?_⟩
  rw [List.map_append, Change.applyAll, List.foldl_append]
  exact (hpicture.assign grows name v).1

theorem PictureReached.configureWith {build : Build}
    (grows : ∀ n a view, (n, .iterating a view []) ∈ as → build.Grows view (alone registry view))
    {s : Stage} {i : Instance} (data : Json) (h : PictureReached registry as own p₀ s.document i) :
    PictureReached registry as own p₀ (configureWith build s i data).1.document
      (configureWith build s i data).2 :=
  configureWith_preserves (PictureReached registry as own p₀) (PictureReached.assign grows)
    (fun _ _ k ⟨hregistry, values, hi⟩ => ⟨hregistry, values, hi.receive k⟩) data h

variable (compiled : ∀ n a view, (n, .iterating a view []) ∈ as → view.IsCompiled)

include compiled

theorem PictureReached.apply {q : Stage × Instance} (h : PictureReached registry as own p₀ q.1.document q.2)
    (c : Call) : PictureReached registry as own p₀ (c.apply q).1.document (c.apply q).2 := by
  have hregistry := h.1
  have hgrows : ∀ n a view, (n, .iterating a view []) ∈ as →
      (build q.2.registry).Grows view (alone registry view) := fun n a view hmem =>
    hregistry ▸ build_grows registry (compiled n a view hmem)
  cases c with
  | set name v =>
    exact assignAllWith_preserves (PictureReached registry as own p₀) (PictureReached.assign hgrows)
      ((name, v) :: q.2.dependents name v) h
  | configure data => exact h.configureWith hgrows data

theorem PictureReached.run (calls : List Call) {q : Stage × Instance}
    (h : PictureReached registry as own p₀ q.1.document q.2) :
    PictureReached registry as own p₀ (Call.run q calls).1.document (Call.run q calls).2 := by
  induction calls generalizing q with
  | nil => exact h
  | cons c calls ih => exact ih (h.apply compiled c)

end PictureReached

end Instance

def Picture.ofCopy (d : Document) : Picture := ⟨d.labelAt, fun _ => [], fun _ => none⟩

namespace Instance

variable {registry : Registry} {className : Option String} {s : Stage} {i : Instance}

section View

variable {ctx : CompileContext} {l : Label} {ps : List Part} {b : Blueprint}

theorem exists_region_of_iterating {d : Document} {id : NodeId} {ss : List Site}
    (hv : IsView ctx l (Site.parts ss) b) (he : d.Exhibits id l ss) {name : String} {a : NodeId}
    {view : Blueprint} {cs : List Instance}
    (h : (name, .iterating a view cs) ∈ accessorsAt ctx b id l ss) :
    ∃ e ∈ b.regions.entries, e.2.view = view := by
  obtain ⟨g, hg, -, -, rfl, -⟩ := iterating_mem_accessorsAt h
  exact exists_region_of_anchored hv he hg

theorem exists_pictureReached_build {build : Build} {log : Log} {data : Json} (hv : IsView ctx l ps b)
    (grows : ∀ e ∈ b.regions.entries, build.Grows e.2.view (alone registry e.2.view))
    (h : buildWith build registry ⟨.empty, log⟩ b className data = (s, .ok i)) :
    ∃ (id : NodeId) (ss : List Site) (d : Document), Site.parts ss = ps ∧ d.Exhibits id l ss ∧
      PictureReached registry (accessorsAt ctx b id l ss) (.node id (shapesAll ss)) (.ofCopy d)
        s.document i := by
  rcases buildWith_cases build registry className data hv (s := ⟨.empty, log⟩) tidy_empty with
    ⟨e, -, heq⟩ | ⟨id, ss, s₁, i₁, -, rfl, hexhibits, hlayout, haccessors, hvalues, hregistry, heq⟩
  · rw [heq] at h
    cases h
  · rw [heq] at h
    obtain ⟨rfl, hi⟩ := Prod.mk.inj h
    obtain rfl := Except.ok.inj hi
    have hfirst : PictureReached registry (accessorsAt ctx b id l ss) (.node id (shapesAll ss))
        (.ofCopy s₁.document) s₁.document i₁ := by
      have hpicture := hlayout.pictureOf
      rw [hvalues] at hpicture
      exact ⟨hregistry, [], hpicture⟩
    refine ⟨id, ss, s₁.document, rfl, hexhibits, hfirst.configureWith (fun n a view hmem => ?_) data⟩
    obtain ⟨e, hentry, rfl⟩ := exists_region_of_iterating hv hexhibits hmem
    exact grows e hentry

end View

variable {text : String} {config : Config} {data : Option Json}

/-- After any calls, an instance of a template comes to a picture that assignments have made of a copy
of the skeleton, whatever view the skeleton is taken to be of. -/
theorem pictureReached_run
    (h : (Template.new text config registry).instantiate className data = .ok (s, i)) :
    ∃ (b : Blueprint) (log : Log), Blueprint.compile config text none = (.ok b, log) ∧
      ∀ l ps, IsView ⟨config, (scan text).2⟩ l ps b →
        ∃ (id : NodeId) (ss : List Site) (d : Document), Site.parts ss = ps ∧ d.Exhibits id l ss ∧
          (∀ n a view, (n, .iterating a view []) ∈ accessorsAt ⟨config, (scan text).2⟩ b id l ss →
            view.IsCompiled) ∧
          ∀ calls, PictureReached registry (accessorsAt ⟨config, (scan text).2⟩ b id l ss)
            (.node id (shapesAll ss)) (.ofCopy d) (Call.run (s, i) calls).1.document
            (Call.run (s, i) calls).2 := by
  obtain ⟨b, log, hcompile, hbuild⟩ := Template.exists_blueprint h
  have hb : b.IsCompiled := ⟨config, text, none, b, log, hcompile, .self⟩
  refine ⟨b, log, hcompile, fun l ps hv => ?_⟩
  obtain ⟨id, ss, d, rfl, hexhibits, hfirst⟩ := exists_pictureReached_build hv
    (fun _ he => build_grows registry (hb.region he)) hbuild
  have hcompiled : ∀ n a view,
      (n, .iterating a view []) ∈ accessorsAt ⟨config, (scan text).2⟩ b id l ss →
      view.IsCompiled := by
    intro n a view hmem
    obtain ⟨⟨_, _⟩, hentry, rfl⟩ := exists_region_of_iterating hv hexhibits hmem
    exact hb.region hentry
  exact ⟨id, ss, d, rfl, hexhibits, hcompiled, fun calls => hfirst.run hcompiled calls⟩

theorem exists_pictureReached_run
    (h : (Template.new text config registry).instantiate className data = .ok (s, i)) :
    ∃ (b : Blueprint) (log : Log) (l : Label) (id : NodeId) (ss : List Site) (d : Document),
      Blueprint.compile config text none = (.ok b, log) ∧
      IsView ⟨config, (scan text).2⟩ l (Site.parts ss) b ∧ d.Exhibits id l ss ∧
      (∀ n a view, (n, .iterating a view []) ∈ accessorsAt ⟨config, (scan text).2⟩ b id l ss →
        view.IsCompiled) ∧
      ∀ calls, PictureReached registry (accessorsAt ⟨config, (scan text).2⟩ b id l ss)
        (.node id (shapesAll ss)) (.ofCopy d) (Call.run (s, i) calls).1.document
        (Call.run (s, i) calls).2 := by
  obtain ⟨b, log, hcompile, hruns⟩ := pictureReached_run h
  obtain ⟨l, ps, hv⟩ := exists_isView hcompile
  obtain ⟨id, ss, d, rfl, hexhibits, hcompiled, hall⟩ := hruns l ps hv
  exact ⟨b, log, l, id, ss, d, hcompile, hv, hexhibits, hcompiled, hall⟩

section Set

variable {d₀ d : Document} {as : List (String × Accessor Instance)} {own : Shape} {p : Picture}
  {name : String} {v : Json}

theorem PictureOf.names (h : PictureOf d₀ as own d i p) : i.accessors.names = as.map (·.1) := by
  obtain ⟨⟨more, hs, -⟩, -, -⟩ := h
  exact hs.names

/-- The assignments that a set is made of depend on which properties there are, and on nothing else. -/
def assignmentsOf (as : List (String × Accessor Instance)) (name : String) (v : Json) :
    List (String × Json) :=
  (name, v) :: (as.map (·.1)).filterMap fun key =>
    (pathBelow? name key).map fun path => (key, (v.resolve? path).getD .null)

theorem registry_set (s : Stage) (i : Instance) (name : String) (v : Json) :
    (i.set s name v).self.registry = i.registry :=
  (confined_assignAllWith _ s i _).registry

theorem PictureOf.set {q : Stage × Instance} (h : PictureOf d₀ as own q.1.document q.2 p)
    (compiled : ∀ n a view, (n, .iterating a view []) ∈ as → view.IsCompiled) (name : String)
    (v : Json) :
    PictureOf d₀ as own (Call.apply q (.set name v)).1.document (Call.apply q (.set name v)).2
      (Change.applyAll p (changesOf (alone q.2.registry) as (assignmentsOf as name v))) := by
  rw [assignmentsOf, ← h.names]
  exact h.assignAll (fun n a view hmem => build_grows q.2.registry (compiled n a view hmem)) _

theorem exists_of_mem_changesOf {grow : Blueprint → Json → Option Tree} {values : List (String × Json)}
    {c : Change} (h : c ∈ changesOf grow as values) : ∃ e ∈ values, c = changeOf grow as e.1 e.2 := by
  obtain ⟨e, he, rfl⟩ := List.mem_map.mp h
  exact ⟨e, (List.takeWhile_subset _) he, rfl⟩

end Set

theorem exists_of_check (t : Template) (className : Option String) (data : Option Json)
    (check : Stage × Instance → Bool)
    (h : (t.instantiate className data).toOption.map check = some true) :
    ∃ q, t.instantiate className data = .ok q ∧ check q = true := by
  rcases hall : t.instantiate className data with e | q
  · rw [hall] at h
    cases h
  · rw [hall] at h
    exact ⟨q, rfl, Option.some.inj h⟩

end Instance

end LiveMarkup
