import LiveMarkup.Proofs.Blueprint.Closure
import LiveMarkup.Proofs.Instance.Binding
import LiveMarkup.Proofs.Instance.Layout

namespace LiveMarkup

open CompileContext Document Site

namespace Site

mutual

theorem anchored_sound {x : NodeId} : ∀ s : Site, s.part.IsSound → ∀ a ∈ anchored x s,
    SoundView a.label a.parts
  | .fixed _ _, _ => fun _ ha => by cases ha
  | .slot _ _, _ => fun _ ha => by cases ha
  | .element id l ss, h => anchoredAll_sound ss h.2
  | .region name l ps, h => fun a ha => by
    rw [anchored, List.mem_singleton] at ha
    subst ha
    exact ⟨h.1, h.2.2, h.2.1⟩

theorem anchoredAll_sound {x : NodeId} : ∀ ss : List Site, Part.AllSound (parts ss) →
    ∀ a ∈ anchoredAll x ss, SoundView a.label a.parts
  | [], _ => fun _ ha => by cases ha
  | s :: ss, h => fun a ha => by
    rw [anchoredAll, List.mem_append] at ha
    rcases ha with ha | ha
    · exact anchored_sound s h.1 a ha
    · exact anchoredAll_sound ss h.2 a ha

end

end Site

theorem owner_mem_of_mem_places {ctx : CompileContext} {ms : List (NodeId × Mark)} {n : String}
    {r : BoundLocation} (h : (n, r) ∈ places ctx ms) : r.place.owner ∈ ms.map (·.1) := by
  rcases mem_places.mp h with ⟨x, hx, rfl⟩ | ⟨x, l, hx, a, i, -, -, -, rfl⟩
  · exact List.mem_map_of_mem hx
  · exact List.mem_map_of_mem hx

theorem mem_locationsOf {ps : List (String × BoundLocation)} {n : String} {r : BoundLocation} :
    r ∈ Instance.locationsOf ps n ↔ (n, r) ∈ ps := by
  rw [Instance.locationsOf, List.mem_map]
  constructor
  · rintro ⟨⟨m, r'⟩, hr, rfl⟩
    rw [List.mem_filter, beq_iff_eq] at hr
    exact hr.2 ▸ hr.1
  · exact fun hr => ⟨(n, r), List.mem_filter.mpr ⟨hr, by simp⟩, rfl⟩

namespace Instance

variable {ctx : CompileContext} {l : Label} {ss : List Site} {b : Blueprint} {id : NodeId}
  {name : String}

theorem bound_mem_accessorsAt {ls : List BoundLocation}
    (h : (name, .bound ls) ∈ accessorsAt ctx b id l ss) :
    ls = locationsOf (places ctx (Exhibits.allMarks id l ss)) name := by
  rw [accessorsAt, List.mem_append] at h
  rcases h with h | h
  · obtain ⟨p, -, he⟩ := List.mem_map.mp h
    obtain ⟨hname, hls⟩ := Prod.mk.inj he
    rw [← hname]
    exact (Accessor.bound.inj hls).symm
  · obtain ⟨a, -, he⟩ := List.mem_map.mp h
    cases (Prod.mk.inj he).2

theorem iterating_mem_accessorsAt {a : NodeId} {view : Blueprint} {cs : List Instance}
    (h : (name, .iterating a view cs) ∈ accessorsAt ctx b id l ss) :
    ∃ g ∈ anchoredAll id ss, g.name = name ∧ g.anchor = a ∧ ctx.view g.label g.parts = view ∧
      cs = [] := by
  rw [accessorsAt, List.mem_append] at h
  rcases h with h | h
  · obtain ⟨p, -, he⟩ := List.mem_map.mp h
    cases (Prod.mk.inj he).2
  · obtain ⟨g, hg, he⟩ := List.mem_map.mp h
    obtain ⟨hname, he⟩ := Prod.mk.inj he
    obtain ⟨hanchor, hview, hcs⟩ := Accessor.iterating.inj he
    exact ⟨g, hg, hname, hanchor, hview, hcs.symm⟩

theorem layout_of_bound {d₀ d : Document} {i : Instance}
    (hc : d₀.Copies d (.node id (shapesAll ss)) b.skeleton) (hroot : i.root = id)
    (haccessors : i.accessors = ⟨accessorsAt ctx b id l ss⟩) :
    i.Layout d₀ d (accessorsAt ctx b id l ss) (.node id (shapesAll ss)) fun _ => [] := by
  refine layout_of_grown hc.grown hroot haccessors (fun n ls hmem r hr => ?_) fun n a v cs hmem => ?_
  · obtain rfl := bound_mem_accessorsAt hmem
    exact (Exhibits.allMarks_sublist id l ss).subset
      (owner_mem_of_mem_places (mem_locationsOf.mp hr))
  · obtain ⟨g, hg, -, rfl, -, hcs⟩ := iterating_mem_accessorsAt hmem
    rw [Shape.ids_node, List.mem_cons]
    exact ⟨anchor_mem_all ss g hg, hcs⟩

theorem Layout.isView_of_get? {d₀ d : Document} {own : Shape} {more : NodeId → List Shape}
    {i : Instance} (h : i.Layout d₀ d (accessorsAt ctx b id l ss) own more)
    (hv : IsView ctx l (Site.parts ss) b) {a : NodeId} {view : Blueprint} {cs : List Instance}
    (hget : i.accessors.get? name = some (.iterating a view cs)) :
    ∃ l' ps', IsView ctx l' ps' view := by
  obtain ⟨g, hg, -, -, rfl, -⟩ := iterating_mem_accessorsAt (h.mem_of_get? hget)
  exact ⟨_, _, isView_view ctx (anchoredAll_sound ss hv.sound.parts g hg)⟩

variable {build : Build} {registry : Registry} {s : Stage} {ps : List Part}
  {className : Option String} {data : Json}

/-- A build fails at once, or the instance takes the data over a fresh copy. -/
theorem buildWith_cases (build : Build) (registry : Registry) (className : Option String)
    (data : Json) (hv : IsView ctx l ps b) (hs : s.document.Tidy) :
    (∃ e, registry.create (className.getD b.targetClass) = .error e ∧
      buildWith build registry s b className data = (s, .error e)) ∨
    ∃ (id : NodeId) (ss : List Site) (s₁ : Stage) (i : Instance),
      (∃ component, registry.create (className.getD b.targetClass) = .ok component) ∧
      Site.parts ss = ps ∧ s₁.document.Exhibits id l ss ∧
      i.Layout s.document s₁.document (accessorsAt ctx b id l ss) (.node id (shapesAll ss))
        (fun _ => []) ∧
      i.accessors = ⟨accessorsAt ctx b id l ss⟩ ∧ i.values = .empty ∧ i.registry = registry ∧
      buildWith build registry s b className data =
        ((configureWith build s₁ i data).1, .ok (configureWith build s₁ i data).2) := by
  cases hcreate : registry.create (className.getD b.targetClass) with
  | error e =>
    left
    refine ⟨e, rfl, ?_⟩
    rw [buildWith]
    dsimp only
    rw [hcreate]
  | ok component =>
    right
    obtain ⟨shape, hcopies, hid⟩ := hs.graft b.skeleton
    obtain ⟨ss, hshape, rfl, hexhibits⟩ := hv.exists_exhibits hcopies
    rw [hid] at hexhibits hshape
    have hbind := bind_eq hv (s.withDocument (s.document.graft b.skeleton).1) hexhibits
      (i := new (s.document.graft b.skeleton).2 (className.getD b.targetClass) component registry) rfl
    rcases hbound : (new (s.document.graft b.skeleton).2 (className.getD b.targetClass) component
      registry).bind (s.withDocument (s.document.graft b.skeleton).1) b
      (s.document.graft b.skeleton).2 with ⟨s₁, i₁, n⟩
    have hbuild : buildWith build registry s b className data =
        ((configureWith build s₁ (i₁.receive .start) data).1,
          .ok (configureWith build s₁ (i₁.receive .start) data).2) := by
      rw [buildWith]
      dsimp only
      rw [hcreate]
      dsimp only
      rw [hbound]
    rw [hbind] at hbound
    obtain ⟨rfl, hrest⟩ := Prod.mk.inj hbound
    obtain ⟨rfl, -⟩ := Prod.mk.inj hrest
    rw [hshape] at hcopies
    exact ⟨_, ss, _, _, ⟨component, rfl⟩, rfl, hexhibits,
      (layout_of_bound hcopies rfl rfl).receive .start, rfl, rfl, rfl, hbuild⟩

/-- If the regions' views are built as they should be, an instance keeps its own nodes when it takes
data. -/
theorem Layout.configure {d₀ : Document} {own : Shape} {more : NodeId → List Shape} {i : Instance}
    (h : i.Layout d₀ s.document (accessorsAt ctx b id l ss) own more)
    (hv : IsView ctx l (Site.parts ss) b)
    (addsTree : ∀ l' ps' view, IsView ctx l' ps' view → build.AddsTree view fun _ _ => True)
    (data : Json) : ∃ more', (configureWith build s i data).2.Layout d₀
      (configureWith build s i data).1.document (accessorsAt ctx b id l ss) own more' := by
  refine configureWith_preserves
    (fun d i => ∃ more, i.Layout d₀ d (accessorsAt ctx b id l ss) own more) ?_
    (fun d i k ⟨more, hi⟩ => ⟨more, hi.receive k⟩) data ⟨_, h⟩
  rintro s i name v ⟨more, hi⟩
  refine hi.assigned (P := fun _ _ _ => True) (assignWith_assigned hi.grown.tidy ?_)
  intro a view cs hget
  obtain ⟨l', ps', hview⟩ := hi.isView_of_get? hv hget
  exact addsTree l' ps' view hview

/-- However deep regions nest, a build adds one tree or nothing. -/
theorem buildWithin_addsTree (registry : Registry) (depth : Nat) {b : Blueprint} {l : Label}
    {ps : List Part} (hv : IsView ctx l ps b) :
    (buildWithin registry depth).AddsTree b fun _ _ => True := by
  induction depth generalizing b l ps with
  | zero =>
    constructor
    · intro s s' item i _ h
      cases (Prod.mk.inj h).2
    · intro s s' item e hs h
      obtain ⟨rfl, -⟩ := Prod.mk.inj h
      exact .refl hs
  | succ depth ih =>
    constructor
    · intro s s' item i hs h
      rw [buildWithin] at h
      rcases buildWith_cases (buildWithin registry depth) registry none item hv hs with
        ⟨e, -, heq⟩ | ⟨id, ss, s₁, i₁, -, rfl, -, hlayout, -, -, -, heq⟩
      · rw [heq] at h
        cases (Prod.mk.inj h).2
      · rw [heq] at h
        obtain ⟨rfl, hi⟩ := Prod.mk.inj h
        obtain rfl := Except.ok.inj hi
        obtain ⟨more, hi⟩ := hlayout.configure hv (fun l' ps' view hview => ih hview) item
        exact ⟨_, by rw [Shape.id_extendBy]; exact hi.root.symm, hi.grown, trivial⟩
    · intro s s' item e hs h
      rw [buildWithin] at h
      rcases buildWith_cases (buildWithin registry depth) registry none item hv hs with
        ⟨e', -, heq⟩ | ⟨id, ss, s₁, i₁, -, rfl, -, -, -, -, -, heq⟩
      · rw [heq] at h
        obtain ⟨rfl, -⟩ := Prod.mk.inj h
        exact .refl hs
      · rw [heq] at h
        cases (Prod.mk.inj h).2

end Instance

end LiveMarkup
