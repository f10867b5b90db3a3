import LiveMarkup.Proofs.Template.Taking
import LiveMarkup.Template.Basic

/-!
# Rendering data

To compile a template, to build an instance of what it compiles to and to let the instance take data
yields the markup of the template's expansion.
-/

namespace LiveMarkup

open CompileContext Document Document.Exhibits Site

namespace Blueprint

theorem depthEntry_le {e : String × Region Blueprint} {es : List (String × Region Blueprint)}
    (h : e ∈ es) : depthEntry e ≤ depthEntries es := by
  induction es with
  | nil => cases h
  | cons e' es ih =>
    rw [depthEntries]
    rcases List.mem_cons.mp h with rfl | hrest
    · exact Nat.le_max_left _ _
    · exact Nat.le_trans (ih hrest) (Nat.le_max_right _ _)

theorem exists_depth_eq (b : Blueprint) : ∃ depth, b.depth = depth + 1 := by
  obtain ⟨skeleton, properties, regions, targetClass⟩ := b
  exact ⟨depthTable regions, by rw [depth]⟩

theorem depth_view_lt {b : Blueprint} {e : String × Region Blueprint} (h : e ∈ b.regions.entries) :
    e.2.view.depth < b.depth := by
  obtain ⟨skeleton, properties, ⟨entries⟩, targetClass⟩ := b
  have hle := depthEntry_le h
  obtain ⟨name, anchor, view⟩ := e
  rw [depthEntry, depthRegion] at hle
  rw [depth, depthTable]
  exact Nat.lt_succ_of_le hle

end Blueprint

namespace Instance

def leafNames (b : Blueprint) : List String :=
  (b.properties.entries.filter fun p => !p.2.isEmpty && !b.regions.contains p.1).map (·.1)

variable {ctx : CompileContext} {b : Blueprint} {id : NodeId} {l : Label} {ss : List Site}
  {d₀ d : Document} {i : Instance}

theorem names_accessorsAt : (accessorsAt ctx b id l ss).map (·.1) =
    leafNames b ++ (anchoredAll id ss).map (·.name) := by
  rw [accessorsAt, List.map_append, List.map_map, List.map_map]
  rfl

theorem mem_leafNames {ps : List Part} (hv : IsView ctx l ps b) {n : String} :
    n ∈ leafNames b ↔ (∃ r, (n, r) ∈ ctx.viewRecords l ps) ∧ n ∉ driversAll ps := by
  have hregion : b.regions.contains n = true ↔ n ∈ driversAll ps := by
    rw [Table.contains_iff, hv.names_regions]
  rw [leafNames, List.mem_map]
  constructor
  · rintro ⟨⟨m, rs⟩, hmem, rfl⟩
    rw [List.mem_filter, Bool.and_eq_true, Bool.not_eq_true', Bool.not_eq_true',
      List.isEmpty_eq_false_iff_exists_mem, ← Bool.not_eq_true, hregion] at hmem
    obtain ⟨hrs, ⟨r, hr⟩, hnot⟩ := hmem
    exact ⟨⟨r, (hv.mem_entries hrs).mp hr⟩, hnot⟩
  · rintro ⟨⟨r, hr⟩, hnot⟩
    obtain ⟨rs, hrs, hmem⟩ := hv.exists_entry hr
    refine ⟨(n, rs), List.mem_filter.mpr ⟨hrs, ?_⟩, rfl⟩
    rw [Bool.and_eq_true, Bool.not_eq_true', Bool.not_eq_true', List.isEmpty_eq_false_iff_exists_mem,
      ← Bool.not_eq_true, hregion]
    exact ⟨⟨r, hmem⟩, hnot⟩

theorem taken_leafNames (hv : IsView ctx l (Site.parts ss) b) (he : d.Exhibits id l ss) {data : Json}
    (hnull : data.isNull = false) {n : String} {r : BoundLocation}
    (h : (n, r) ∈ places ctx (allMarks id l ss)) :
    taken data (leafNames b) n = (scopeOf data (driversAll (Site.parts ss))).value? n := by
  have hrecord : ∃ r, (n, r) ∈ ctx.viewRecords l (Site.parts ss) := by
    have hnames := congrArg (List.map (·.1)) (he.located_viewRecords ctx hv.sound)
    rw [List.map_map, List.map_map] at hnames
    have hmem : n ∈ (places ctx (allMarks id l ss)).map ((·.1) ∘ found) :=
      List.mem_map.mpr ⟨_, h, rfl⟩
    rw [← hnames] at hmem
    obtain ⟨⟨m, r'⟩, hr', rfl⟩ := List.mem_map.mp hmem
    exact ⟨r', hr'⟩
  unfold taken scopeOf
  dsimp only
  rw [hnull, Bool.false_or]
  by_cases hdriven : n ∈ driversAll (Site.parts ss)
  · have hnot : n ∉ leafNames b := fun hleaf => ((mem_leafNames hv).mp hleaf).2 hdriven
    rw [if_neg (by simpa using hnot), if_pos (by simpa using hdriven)]
  · have hleaf : n ∈ leafNames b := (mem_leafNames hv).mpr ⟨hrecord, hdriven⟩
    rw [if_pos (by simpa using hleaf), if_neg (by simpa using hdriven)]

theorem get?_accessorsAt (hv : IsView ctx l (Site.parts ss) b) {n : String} {ac : Accessor Instance}
    (h : (n, ac) ∈ accessorsAt ctx b id l ss) :
    (Table.mk (accessorsAt ctx b id l ss)).get? n = some ac :=
  (Table.get?_eq_some_iff (nodup_names_accessorsAt hv id)).mpr h

theorem exists_bound_of_mem_leafNames (hv : IsView ctx l (Site.parts ss) b) {n : String}
    (h : n ∈ leafNames b) :
    ∃ ls, (Table.mk (accessorsAt ctx b id l ss)).get? n = some (.bound ls) := by
  obtain ⟨p, hp, rfl⟩ := List.mem_map.mp h
  exact ⟨_, get?_accessorsAt hv (List.mem_append_left _ (List.mem_map_of_mem hp))⟩

theorem HasTaken.showing_null (h : HasTaken ctx b id l ss d₀ d (fun _ => none) d i) {data : Json}
    (hnull : data.isNull = true) : Showing ctx (scopeOf data (driversAll (Site.parts ss)))
      (Shape.node id (shapesAll ss)).ids (allMarks id l ss) (anchoredAll id ss) d d
      (fun _ => []) := by
  refine ⟨fun m hm => ?_, fun x _ hx => h.unmarked x hx, fun x _ => ?_⟩
  · have hnone : (scopeOf data (driversAll (Site.parts ss))).value? = fun _ => none := by
      funext n
      simp [scopeOf, hnull]
    rw [hnone]
    exact h.marked m hm
  · rw [List.map_nil, eq_comm, List.flatMap_eq_nil_iff]
    intro g _
    simp [copiesOf, scopeOf, hnull]

theorem HasTaken.hasCopied (hv : IsView ctx l (Site.parts ss) b) {value? : String → Option Json}
    {d₁ : Document} (h : HasTaken ctx b id l ss d₀ d₁ value? d i) (v : Scope) :
    HasCopied ctx v (accessorsAt ctx b id l ss) (.node id (shapesAll ss)) d₀ d []
      (anchoredAll id ss) (fun _ => []) d i := by
  refine ⟨h.layout, fun g hg => ?_, fun _ _ => rfl, fun _ _ => rfl⟩
  rw [h.accessors]
  exact get?_accessorsAt hv (List.mem_append_right _ (List.mem_map.mpr ⟨g, hg, rfl⟩))

/-- When the regions are filled as well, the whole view is shown. -/
theorem HasTaken.showing (hv : IsView ctx l (Site.parts ss) b) {d₁ d₂ d₃ : Document}
    (he : d₁.Exhibits id l ss) {data : Json} (hnull : data.isNull = false) {i₂ i₃ : Instance}
    {more : NodeId → List Shape}
    (htaken : HasTaken ctx b id l ss d₀ d₁ (taken data (leafNames b)) d₂ i₂)
    (hcopied : HasCopied ctx (scopeOf data (driversAll (Site.parts ss)))
      (accessorsAt ctx b id l ss) (.node id (shapesAll ss)) d₀ d₂ (anchoredAll id ss) [] more d₃ i₃) :
    Showing ctx (scopeOf data (driversAll (Site.parts ss))) (Shape.node id (shapesAll ss)).ids
      (allMarks id l ss) (anchoredAll id ss) d₁ d₃ more := by
  refine ⟨fun m hm => ?_, fun x hx hnot => ?_, hcopied.copied⟩
  · have hshown := ctx.markLabel_congr (x := m.1) (m := m.2) fun n r hr =>
      taken_leafNames hv he hnull (List.mem_flatMap.mpr ⟨m, hm, hr⟩)
    rw [labelAt, hcopied.labels m.1 (mem_own_of_mem_allMarks hm), ← hshown]
    exact htaken.marked m hm
  · rw [hcopied.labels x hx]
    exact htaken.unmarked x hnot

/-- A fresh instance that takes data shows the view filled with the data. -/
theorem configureWith_showing {build : Build} {s : Stage} (hv : IsView ctx l (Site.parts ss) b)
    (he : s.document.Exhibits id l ss)
    (hlayout : i.Layout d₀ s.document (accessorsAt ctx b id l ss) (.node id (shapesAll ss))
      fun _ => [])
    (haccessors : i.accessors = ⟨accessorsAt ctx b id l ss⟩) (hvalues : i.values = .empty)
    (hfills : ∀ g ∈ anchoredAll id ss, Fills build ctx g.label g.parts) (data : Json) :
    ∃ more, (configureWith build s i data).2.Layout d₀ (configureWith build s i data).1.document
        (accessorsAt ctx b id l ss) (.node id (shapesAll ss)) more ∧
      Showing ctx (scopeOf data (driversAll (Site.parts ss))) (Shape.node id (shapesAll ss)).ids
        (allMarks id l ss) (anchoredAll id ss) s.document
        (configureWith build s i data).1.document more := by
  have hfresh := hasTaken_none he hv.sound hlayout haccessors hvalues
  unfold configureWith
  by_cases hnull : data.isNull = true
  · rw [if_pos hnull]
    exact ⟨_, hlayout.receive _, hfresh.showing_null hnull⟩
  · rw [if_neg hnull]
    rw [Bool.not_eq_true] at hnull
    have hnames : i.accessors.names = leafNames b ++ (anchoredAll id ss).map (·.name) := by
      rw [haccessors, ← names_accessorsAt]
      rfl
    obtain ⟨s₂, i₂, heq, htaken⟩ := takeAllWith_values build he.nodup_allMarks (leafNames b)
      (fun n hn => exists_bound_of_mem_leafNames hv hn) ((anchoredAll id ss).map (·.name)) [] hfresh
    have hdistinct : ((anchoredAll id ss).map (·.name)).Nodup := by
      rw [names_anchoredAll]
      exact hv.sound.drivers
    obtain ⟨more, hdone⟩ := takeAllWith_regions (anchoredAll id ss) hdistinct hfills
      (fun n => by rw [scopeOf, hnull]; rfl)
      (htaken.hasCopied hv (scopeOf data (driversAll (Site.parts ss))))
    rw [hnames, heq]
    exact ⟨more, hdone.layout.receive _, htaken.showing hv he hnull hdone⟩

variable {build : Build} {registry : Registry} {component : Component}

theorem exists_region_of_anchored (hv : IsView ctx l (Site.parts ss) b) (he : d.Exhibits id l ss)
    {g : Anchored} (hg : g ∈ anchoredAll id ss) :
    ∃ e ∈ b.regions.entries, e.2.view = ctx.view g.label g.parts := by
  have hmem := List.mem_map_of_mem (f := foundRegion ctx) hg
  rw [← he.located_viewRegions ctx] at hmem
  obtain ⟨e, hentry, heq⟩ := List.mem_map.mp hmem
  rw [hv.regions]
  exact ⟨e, hentry, (Prod.mk.inj (Prod.mk.inj heq).2).2⟩

/-- A build with a known class adds the filled view, if the builds of its regions do. -/
theorem buildWith_fills {ps : List Part} {s s' : Stage} {className : Option String}
    (hv : IsView ctx l ps b) (hs : s.document.Tidy)
    (hclass : registry.create (className.getD b.targetClass) = .ok component)
    (hfills : ∀ l' ps', SoundView l' ps' → (ctx.view l' ps').depth < b.depth →
      Fills build ctx l' ps') {data : Json}
    (hbuild : buildWith build registry s b className data = (s', .ok i)) :
    ∃ t : Shape, t.id = i.root ∧ Grown s.document s'.document [t] ∧
      (s'.document.treeAt t).bare = (ctx.fillView l ps data).bare := by
  rcases buildWith_cases build registry className data hv hs with
    ⟨e, hfailed, -⟩ | ⟨id, ss, s₁, i₁, -, rfl, he, hlayout, haccessors, hvalues, -, heq⟩
  · rw [hclass] at hfailed
    cases hfailed
  · rw [heq] at hbuild
    obtain ⟨rfl, hi⟩ := Prod.mk.inj hbuild
    obtain rfl := Except.ok.inj hi
    have hregions : ∀ g ∈ anchoredAll id ss, Fills build ctx g.label g.parts := by
      intro g hg
      obtain ⟨e, hentry, hview⟩ := exists_region_of_anchored hv he hg
      refine hfills _ _ (anchoredAll_sound ss hv.sound.parts g hg) ?_
      rw [← hview]
      exact Blueprint.depth_view_lt hentry
    obtain ⟨more, hlayout, hshowing⟩ := configureWith_showing hv he hlayout haccessors hvalues
      hregions data
    refine ⟨_, ?_, hlayout.grown, hshowing.bare_treeAt he⟩
    rw [Shape.id_extendBy]
    exact hlayout.root.symm

/-- With a class for its regions, a view is filled however deep they nest. -/
theorem buildWithin_fills (hclass : registry.create ctx.config.defaultClass = .ok component)
    (depth : Nat) {ps : List Part} (hs : SoundView l ps) (hdepth : (ctx.view l ps).depth ≤ depth) :
    Fills (buildWithin registry depth) ctx l ps := by
  induction depth generalizing l ps with
  | zero =>
    obtain ⟨depth, hview⟩ := (ctx.view l ps).exists_depth_eq
    omega
  | succ depth ih =>
    have hfills : ∀ l' ps', SoundView l' ps' → (ctx.view l' ps').depth < (ctx.view l ps).depth →
        Fills (buildWithin registry depth) ctx l' ps' := by
      intro l' ps' hs' hlt
      exact ih hs' (by omega)
    have hview := isView_view ctx hs
    refine ⟨⟨fun hd hbuild => buildWith_fills hview hd hclass hfills hbuild, ?_⟩, ?_⟩
    · exact fun hd hfailed => (buildWithin_addsTree registry (depth + 1) hview).failed hd hfailed
    · intro s item
      rw [buildWithin, buildWith]
      dsimp only
      rw [Option.getD_none, view, hclass]
      exact ⟨_, _, rfl⟩

end Instance

/-- What a template text means for data: the expansion of the tree that it is parsed to. -/
def expansion (config : Config) (text : String) (data : Json) : Tree :=
  expandRoot ⟨config, (scan text).2⟩ data
    (skeletonRoot (parse (scan text).1 config.sourceUrl config.preserveWhitespace).roots)

namespace Template

variable {text : String} {config : Config} {registry : Registry} {b : Blueprint} {log : Log}
  {className : Option String} {component component' : Component}

/-- A template that compiles and whose class is known has an instance for all data. -/
theorem instantiate_eq_ok (hcompile : Blueprint.compile config text none = (.ok b, log))
    (hclass : registry.create (className.getD b.targetClass) = .ok component) (data : Option Json) :
    ∃ s i, (Template.new text config registry).instantiate className data = .ok (s, i) ∧
      Instance.buildWith (Instance.build registry) registry ⟨.empty, log⟩ b className
        (data.getD .null) = (s, .ok i) := by
  unfold Template.instantiate Template.blueprint Template.new
  dsimp only
  rw [hcompile]
  dsimp only
  rw [Instance.instantiate, Instance.buildWith]
  dsimp only
  rw [hclass]
  exact ⟨_, _, rfl, rfl⟩

/-- A template that compiles renders the markup of its expansion, whatever the data. -/
theorem render_eq_expansion (hcompile : Blueprint.compile config text none = (.ok b, log))
    (hclass : registry.create (className.getD config.defaultClass) = .ok component)
    (hregions : registry.create config.defaultClass = .ok component') (data : Option Json) :
    (Template.new text config registry).render className data =
      .ok (expansion config text (data.getD .null)).render := by
  obtain ⟨-, l, ts, hroot, helement, hnames, hb, -⟩ := compile_eq_ok hcompile
  generalize hctx : (⟨config, (scan text).2⟩ : CompileContext) = ctx at hnames hb
  have hview : IsView ctx (ctx.elementLabel l) (ctx.partsAll [] ts) b := by
    rw [hb]
    exact isView_viewWith _ _ (soundView_of_everyLabel helement hnames) (scan_nameList text).nodup
  have htarget : b.targetClass = config.defaultClass := by
    rw [hb]
    rfl
  have hdefault : registry.create ctx.config.defaultClass = .ok component' := by
    rw [← hctx]
    exact hregions
  rw [← htarget] at hclass
  obtain ⟨s, i, hinstantiate, hbuild⟩ := instantiate_eq_ok hcompile hclass data
  have hfills : ∀ l' ps', SoundView l' ps' → (ctx.view l' ps').depth < b.depth →
      Instance.Fills (Instance.build registry) ctx l' ps' := by
    intro l' ps' hs' _
    obtain ⟨⟨hbuilt, hfailed⟩, hall⟩ :=
      Instance.buildWithin_fills hdefault _ hs' (Nat.le_refl (ctx.view l' ps').depth)
    exact ⟨⟨hbuilt, hfailed⟩, hall⟩
  obtain ⟨t, hid, hgrown, hbare⟩ := Instance.buildWith_fills hview tidy_empty hclass hfills hbuild
  rw [Template.render, hinstantiate]
  dsimp only
  rw [Instance.render, ← hid, hgrown.head_holds.render hgrown.head_nodup,
    Tree.render_eq_of_bare hbare, render_fillView, expansion, hroot, hctx]

def listData : Json :=
  .object [("kind", .string "plain"), ("title", .string "A & B"), ("rows", .array
    [.object [("name", .string "one")], .object [("name", .string "two"), ("kind", .null)]])]

theorem render_listText : (Template.new listText .standard .standard).render none (some listData) =
    .ok "<ul class=\"plain\">A &amp; B<li>one</li><li>two</li></ul>" := by
  have hcompiles : (Blueprint.compile .standard listText none).1.toOption.isSome = true := by
    decide +kernel
  have hexpansion : (expansion .standard listText listData).render =
      "<ul class=\"plain\">A &amp; B<li>one</li><li>two</li></ul>" := by
    decide +kernel
  rcases hcompile : Blueprint.compile .standard listText none with ⟨_ | b, log⟩
  · rw [hcompile] at hcompiles
    cases hcompiles
  · have hclass : Registry.standard.create Config.standard.defaultClass = .ok (.new .generic) := rfl
    have hrender : (Template.new listText .standard .standard).render none (some listData) =
        .ok (expansion .standard listText listData).render :=
      render_eq_expansion hcompile hclass hclass (some listData)
    rw [hrender, hexpansion]

end Template

end LiveMarkup
