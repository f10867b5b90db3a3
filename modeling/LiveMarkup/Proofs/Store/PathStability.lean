import LiveMarkup.Proofs.Store.Replacing

namespace LiveMarkup

open Document

namespace Document

structure Continues (d d' : Document) (ids : List NodeId) : Prop where
  closed : ∀ x ∈ ids, ∀ y ∈ d.children x, y ∈ ids
  children : ∀ x ∈ ids, d.children x <+: d'.children x
  labels : ∀ x ∈ ids, (d'.label? x).map Label.pathKey = (d.label? x).map Label.pathKey

namespace Continues

variable {d d' : Document} {ids : List NodeId} {x y : NodeId}

theorem sameStep_eq (h : Continues d d' ids) (hx : x ∈ ids) (kind : NodeKind) (name : String) :
    ((d'.label? x).map (Label.sameStep kind name)).getD false =
      ((d.label? x).map (Label.sameStep kind name)).getD false := by
  have hmap := congrArg (Option.map fun w : NodeKind × String × List String =>
    w.1 == kind && w.2.1 == name) (h.labels x hx)
  rw [Option.map_map, Option.map_map] at hmap
  exact congrArg (·.getD false) hmap

theorem names_attributes (h : Continues d d' ids) (hx : x ∈ ids) :
    (d'.attributes x).names = (d.attributes x).names := by
  have hread : ∀ e : Document, (e.attributes x).names =
      (((e.label? x).map Label.pathKey).map (·.2.2)).getD [] := fun e => by
    rw [attributes]
    cases e.label? x <;> rfl
  rw [hread, hread, h.labels x hx]

theorem childAt?_eq (h : Continues d d' ids) (hx : x ∈ ids) {kind : NodeKind} {name : String}
    {ordinal : Nat} (hy : d.childAt? x kind name ordinal = some y) :
    d'.childAt? x kind name ordinal = some y ∧ y ∈ ids := by
  obtain ⟨later, hlater⟩ := h.children x hx
  have hsame : (d.children x).filter (fun z =>
        ((d'.label? z).map (Label.sameStep kind name)).getD false) =
      (d.children x).filter fun z => ((d.label? z).map (Label.sameStep kind name)).getD false :=
    List.filter_congr fun z hz => h.sameStep_eq (h.closed x hx z hz) kind name
  rw [childAt?] at hy ⊢
  constructor
  · rw [← hlater, List.filter_append, hsame]
    exact List.getElem?_append_left (List.getElem?_eq_some_iff.mp hy).1 ▸ hy
  · exact h.closed x hx y (List.mem_of_mem_filter (List.mem_of_getElem? hy))

theorem follow?_eq (h : Continues d d' ids) (hx : x ∈ ids) {frames : List Frame} {place : Place}
    (hp : d.follow? x frames = some place) : d'.follow? x frames = some place := by
  induction frames generalizing x with
  | nil => exact hp
  | cons f frames ih =>
    cases f with
    | child kind name ordinal =>
      rw [follow?_child] at hp ⊢
      obtain ⟨y, hy, hp⟩ := Option.bind_eq_some_iff.mp hp
      obtain ⟨hy', hmem⟩ := h.childAt?_eq hx hy
      rw [hy', Option.bind_some]
      exact ih hmem hp
    | «attribute» name =>
      have hindex : ∀ t : Table String, t.entries.findIdx? (fun a => a.1 == name) =
          t.names.findIdx? (· == name) := fun t => by rw [Table.names, List.findIdx?_map]; rfl
      rw [follow?] at hp ⊢
      rwa [hindex, h.names_attributes hx, ← hindex]

theorem decode?_eq (h : Continues d d' ids) (hx : x ∈ ids) {path : Path} {place : Place}
    (hp : d.decode? x path = some place) : d'.decode? x path = some place := by
  have hlive : ∀ e : Document, e.contains x = ((e.label? x).map Label.pathKey).isSome := fun e => by
    rw [contains, label?, Option.isSome_map, Option.isSome_map]
  rw [decode?, hlive] at hp ⊢
  rw [h.labels x hx]
  split at hp
  · rename_i hsome
    rw [if_pos hsome]
    exact h.follow?_eq hx hp
  · cases hp

end Continues

end Document

theorem KeepsOwn.continues {d d' : Document} {i i' : Instance} {c : Shape} (h : KeepsOwn d i d' i')
    (bare : i.stops = []) (held : d.Holds none c) (root : c.id = i.root) :
    d.Continues d' c.ids := by
  have hown : ∀ x ∈ c.ids, d.Own i.stops x i.root := by
    intro x hx
    rw [bare, ← root]
    exact Relation.ReflTransGen.mono (fun _ _ hlink => ⟨hlink, List.not_mem_nil⟩) _ _
      (held.mem_ids_iff.mp hx)
  have hclosed : ∀ x ∈ c.ids, ∀ y ∈ d.children x, y ∈ c.ids := fun x hx y hy =>
    (held.children_subset hx hy).1
  refine ⟨hclosed, fun x hx => ?_, fun x hx => h.labels x (hown x hx)⟩
  exact h.children x (hown x hx) _ List.prefix_rfl fun y hy => hown y (hclosed x hx y hy)

def Blueprint.paths (b : Blueprint) : List Path :=
  b.properties.entries.flatMap (fun p => p.2.map (·.path)) ++ b.regions.entries.map (·.2.anchor)

theorem Blueprint.ResolvesIn.exists_place {b : Blueprint} {d : Document} {root : NodeId}
    (h : b.ResolvesIn d root) {path : Path} (hpath : path ∈ b.paths) :
    ∃ place, d.decode? root path = some place := by
  rcases List.mem_append.mp hpath with hpath | hpath
  · obtain ⟨⟨n, rs⟩, hrs, hpath⟩ := List.mem_flatMap.mp hpath
    obtain ⟨r, hr, rfl⟩ := List.mem_map.mp hpath
    by_cases hwhole : r.expression = .wholeText
    · obtain ⟨x, hx, -⟩ := h.texts n rs r hrs hr hwhole
      exact ⟨_, hx⟩
    · obtain ⟨x, k, name, hx, -⟩ := h.attributes n rs r hrs hr hwhole
      exact ⟨_, hx⟩
  · obtain ⟨⟨n, g⟩, hg, rfl⟩ := List.mem_map.mp hpath
    obtain ⟨x, l, hx, -⟩ := h.anchors n g hg
    exact ⟨_, hx⟩

/-- An instance that has been built keeps what it had when it was only a copy of the skeleton. -/
theorem Instance.instantiate_keepsOwn {registry : Registry} {s s' : Stage} {b : Blueprint}
    {className : Option String} {data : Option Json} {i : Instance} (hb : b.IsCompiled)
    (hs : s.document.Tidy) (h : instantiate registry s b className data = (s', .ok i)) :
    ∃ i₀ : Instance, i₀.root = (s.document.graft b.skeleton).2 ∧ i₀.stops = [] ∧
      KeepsOwn (s.document.graft b.skeleton).1 i₀ s'.document i := by
  rw [instantiate, buildWith] at h
  dsimp only at h
  rcases hcreate : registry.create (className.getD b.targetClass) with e | component
  · rw [hcreate] at h
    cases (Prod.mk.inj h).2
  · rw [hcreate] at h
    dsimp only at h
    -- the other one of the two runs does not matter, so it is the same
    obtain ⟨watch, hplanted⟩ := LockstepAt.plant (s := s.withDocument (s.document.graft b.skeleton).1)
      (t := s.withDocument (s.document.graft b.skeleton).1)
      (fun view => (Instance.build registry).Alike (Instance.build registry) view) hs hs hb
      (fun _ _ hregion => build_alike registry (hb.region hregion)) rfl rfl
      (className.getD b.targetClass) component registry
    have htransitions := ((hplanted.receive .start).configure (fun _ h => h) (data.getD .null)).transitions
    obtain ⟨hstage, hself⟩ := Prod.mk.inj h
    rw [← hstage, ← Except.ok.inj hself]
    exact ⟨_, rfl, rfl, htransitions.keepsOwn⟩

/-- What a path leads to in a copy of a tree it leads to as long as the instance keeps its own nodes that
began as that copy. -/
theorem KeepsOwn.decode?_graft {d d' : Document} {t : Tree} {i₀ i : Instance}
    (h : KeepsOwn (d.graft t).1 i₀ d' i) (hd : d.Tidy) (root : i₀.root = (d.graft t).2)
    (bare : i₀.stops = []) {path : Path} {place : Place}
    (hp : (d.graft t).1.decode? (d.graft t).2 path = some place) :
    d'.decode? i.root path = some place := by
  obtain ⟨c, hcopies, hid⟩ := hd.graft t
  rw [← hid] at root hp
  rw [h.root, root]
  exact (h.continues bare hcopies.holds root.symm).decode?_eq c.id_mem_ids hp

namespace Store

variable {c : Store} {b : String → Store} {d₀ : Document} {a : Act} {name : String} {i : Instance}

theorem Shared.keepsOwn (h : Shared d₀ c b) (ha : a.Compiled) (hi : c.residents.get? name = some i) :
    ∃ j, (c.perform a).1.residents.get? name = some j ∧
      KeepsOwn c.document i (c.perform a).1.document j := by
  by_cases hname : name = a.name
  · subst hname
    cases a with
    | place name registry view className data =>
      have hsame : c.perform (.place name registry view className data) = (c, .noSuchThing) := by
        rw [Store.perform, show c.residents.get? name = some i from hi]
      rw [hsame]
      exact ⟨i, hi, .refl _ _⟩
    | host name registry tree className =>
      have hsame : c.perform (.host name registry tree className) = (c, .noSuchThing) := by
        rw [Store.perform, show c.residents.get? name = some i from hi]
      rw [hsame]
      exact ⟨i, hi, .refl _ _⟩
    | ask name way request =>
      rw [Store.perform, show c.residents.get? name = some i from hi]
      dsimp only
      rcases hg : i.descend? way with _ | g
      · exact ⟨i, hi, .refl _ _⟩
      · dsimp only
        cases h.matched name with
        | absent left => cases left.symm.trans hi
        | @present i' base base' f s left right renamed =>
          obtain rfl := Option.some.inj (left.symm.trans hi)
          obtain ⟨⟨watch, hlock⟩, -⟩ := LockstepAt.apply (s := ⟨c.document, []⟩)
            (t := ⟨(b name).document, []⟩) (LockstepAt.start renamed hg) rfl ha
          exact ⟨_, Table.get?_put_self _ _ _, hlock.transitions.keepsOwn⟩
  · have hchange := ((h.matched a.name).perform ha h.tidy).localChange
    refine ⟨i, (hchange.get?_of_ne hname).trans hi, ?_⟩
    exact .of_frame fun x hx => h.frame hchange hname hi hx

theorem Shared.keepsOwn_run (h : Shared d₀ c b) {acts : List Act} (compiled : ∀ a ∈ acts, a.Compiled)
    (hi : c.residents.get? name = some i) :
    ∃ j, (c.run acts).residents.get? name = some j ∧
      KeepsOwn c.document i (c.run acts).document j := by
  induction acts generalizing c b i with
  | nil => exact ⟨i, hi, .refl _ _⟩
  | cons a acts ih =>
    have ha := compiled a List.mem_cons_self
    obtain ⟨j, hj, hfirst⟩ := h.keepsOwn ha hi
    obtain ⟨k, hk, hrest⟩ := ih (h.perform ha).1 (fun a' ha' => compiled a' (List.mem_cons_of_mem _ ha')) hj
    exact ⟨k, hk, hfirst.trans hrest⟩

theorem perform_place_done {registry : Registry} {view : Blueprint} {className : Option String}
    {data : Option Json} (h : (c.perform (.place name registry view className data)).2 = .done) :
    ∃ s i, Instance.instantiate registry ⟨c.document, []⟩ view className data = (s, .ok i) ∧
      (c.perform (.place name registry view className data)).1 =
        ⟨s.document, c.residents.put name i⟩ := by
  rw [perform] at h ⊢
  rcases hfree : c.residents.get? name with _ | taken
  · rw [hfree] at h
    dsimp only at h ⊢
    rcases hbuilt : Instance.instantiate registry ⟨c.document, []⟩ view className data
      with ⟨s, e | i⟩
    · rw [hbuilt] at h
      cases h
    · exact ⟨s, i, rfl, rfl⟩
  · rw [hfree] at h
    cases h

theorem perform_place_of_create {registry : Registry} {view : Blueprint} {className : Option String}
    {data : Option Json} {component : Component} (free : c.residents.get? name = none)
    (created : registry.create (className.getD view.targetClass) = .ok component) :
    (c.perform (.place name registry view className data)).2 = .done := by
  rw [perform, free]
  dsimp only
  rw [Instance.instantiate, Instance.buildWith, created]

/-- Whatever was done before with a document, an instance of a view is placed in it, and whatever is done
with it and its family and with others then, each path of the view leads from its root to the place to
which it led when the instance was placed. -/
theorem decode?_run {d : Document} (tidy : d.Tidy) {before after : List Act}
    (compiledBefore : ∀ a ∈ before, a.Compiled) (compiledAfter : ∀ a ∈ after, a.Compiled)
    {name : String} {registry : Registry} {view : Blueprint} {className : Option String}
    {data : Option Json} (compiled : view.IsCompiled)
    (placed : ((run ⟨d, .empty⟩ before).perform (.place name registry view className data)).2 =
      .done) :
    let c := ((run ⟨d, .empty⟩ before).perform (.place name registry view className data)).1
    ∃ i j, c.residents.get? name = some i ∧ (c.run after).residents.get? name = some j ∧
      j.root = i.root ∧ ∀ path ∈ view.paths, ∃ place, c.document.decode? i.root path = some place ∧
        (c.run after).document.decode? j.root path = some place := by
  intro c
  obtain ⟨hshared, -⟩ := (Shared.empty tidy).run compiledBefore
  have hplaced : (Act.place name registry view className data).Compiled := compiled
  obtain ⟨hnext, -⟩ := hshared.perform hplaced
  obtain ⟨s, i, hbuilt, hc : c = _⟩ := perform_place_done placed
  have hi : c.residents.get? name = some i := by
    rw [hc]
    exact Table.get?_put_self _ _ _
  have hdocument : s.document = c.document := by rw [hc]
  obtain ⟨i₀, hroot, hbare, hbegin⟩ := Instance.instantiate_keepsOwn compiled hshared.tidy hbuilt
  obtain ⟨j, hj, hrest⟩ := Shared.keepsOwn_run hnext compiledAfter hi
  obtain ⟨ctx, l, ps, hview⟩ := compiled.exists_isView
  rw [hdocument] at hbegin
  refine ⟨i, j, hi, hj, hrest.root, fun path hpath => ?_⟩
  obtain ⟨place, hplace⟩ := (hview.resolvable.copies _ hshared.tidy).exists_place hpath
  exact ⟨place, hbegin.decode?_graft hshared.tidy hroot hbare hplace,
    (hbegin.trans hrest).decode?_graft hshared.tidy hroot hbare hplace⟩

def changes (b : Blueprint) : List Act :=
  [.ask "list" [] (.set "rows" (.array twoRows)), .ask "list" [("rows", 1)] (.extend b),
    .ask "list" [] (.extend b), .ask "list" [] (.configure (.object [("rows", .array [])]))]

theorem compiled_changes {b : Blueprint} (h : b.IsCompiled) : ∀ a ∈ changes b, a.Compiled := by
  intro a ha
  simp only [changes, List.mem_cons, List.not_mem_nil, or_false] at ha
  rcases ha with rfl | rfl | rfl | rfl
  · trivial
  · exact h
  · exact h
  · trivial

/-- A list that begins with two rows, in a document where a paragraph stands. -/
theorem decode?_run_changes :
    ∃ b log, Blueprint.compile .standard listText none = (.ok b, log) ∧ b.paths.length = 3 ∧
      let c := ((run ⟨emptiedDocument, .empty⟩
        [.host "left" .standard (.node (.element "p") []) "Component"]).perform
          (.place "list" .standard b (some "Component") (some (.object [("rows", .array twoRows)])))).1
      ∃ i j, c.residents.get? "list" = some i ∧
        (c.run (changes b)).residents.get? "list" = some j ∧ j.root = i.root ∧
        ∀ path ∈ b.paths, ∃ place, c.document.decode? i.root path = some place ∧
          (c.run (changes b)).document.decode? j.root path = some place := by
  obtain ⟨b, log, hcompile, hb⟩ := exists_compiled_listText
  have hpaths : (Blueprint.compile .standard listText none).1.toOption.map
      (fun b => b.paths.length) = some 3 := by decide +kernel
  rw [hcompile] at hpaths
  obtain ⟨s, hcopies, -⟩ := tidy_empty.graft (.node (.element "p") [])
  have hcreate : Registry.create .standard "Component" = .ok (.new .generic) := rfl
  refine ⟨b, log, hcompile, Option.some.inj hpaths, decode?_run (hcopies.tidy.remove 0) ?_
    (compiled_changes hb) hb (perform_place_of_create rfl hcreate)⟩
  intro a ha
  rw [List.mem_singleton.mp ha]
  trivial

end Store

end LiveMarkup
