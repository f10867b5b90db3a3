import LiveMarkup.Proofs.Store.Independence

namespace LiveMarkup

open Document

theorem Document.Retains.appearance {d d' : Document} {i : Instance} (h : d.Retains d' i.root) :
    i.appearance d' = i.appearance d := by
  obtain ⟨c, p, p', hid, hn, hc, hc', hlabels⟩ := h
  have hbelow : d.descendants i.root = c.ids := hid ▸ hc.descendants hn
  have hbelow' : d'.descendants i.root = c.ids := hid ▸ hc'.descendants hn
  unfold Instance.appearance
  congr 1
  · rw [Instance.render, Instance.render, ← hid, hc'.render hn, hc.render hn, treeAt_congr hlabels]
  · rw [Instance.textContent, Instance.textContent, Document.textContent, Document.textContent,
      hbelow, hbelow']
    congr 1
    exact List.filterMap_congr fun x hx => by rw [hlabels x hx]
  · rw [hbelow, hbelow']
    exact List.map_congr_left fun x hx => by rw [controlValue?, controlValue?, hlabels x hx]

namespace Instance

variable {registry : Registry} {view : Blueprint} {d d' : Document} {i c : Instance} {item : Json}
  {names : List String} {x a : NodeId} {name : String} {v : Json} {values : List (String × Json)}

/-- The instance looks as one of the view, with the item as its data, that stands alone. -/
def LooksAlone (registry : Registry) (view : Blueprint) (item : Json) (d : Document)
    (c : Instance) : Prop :=
  ∃ t j, instantiate registry ⟨.empty, []⟩ view none (some item) = (t, .ok j) ∧
    c.appearance d = j.appearance t.document

theorem LooksAlone.retained (h : LooksAlone registry view item d c) (hr : d.Retains d' c.root) :
    LooksAlone registry view item d' c := by
  obtain ⟨t, j, hbuilt, hlook⟩ := h
  exact ⟨t, j, hbuilt, hr.appearance.trans hlook⟩

theorem LooksAlone.retainedAll {items : List Json} {cs : List Instance}
    (h : List.Forall₂ (fun item c => LooksAlone registry view item d c) items cs)
    (hr : ∀ c ∈ cs, d.Retains d' c.root) :
    List.Forall₂ (fun item c => LooksAlone registry view item d' c) items cs := by
  induction h with
  | nil => exact .nil
  | cons hone _ ih =>
    exact .cons (hone.retained (hr _ List.mem_cons_self)) (ih fun c hc => hr c (List.mem_cons_of_mem _ hc))

theorem build_alike_instantiate (registry : Registry) (hb : view.IsCompiled) :
    (build registry).Alike (fun s b item => instantiate registry s b none (some item)) view := by
  intro s t item hs ht
  obtain ⟨depth, hdepth⟩ := view.exists_depth_eq
  rw [build, hdepth]
  refine buildWith_alike hb (fun name region hregion => ?_) registry none item hs ht
  have hlt := Blueprint.depth_view_lt hregion
  exact buildWithin_alike registry (hb.region hregion) (by dsimp only at hlt; omega) le_rfl

/-- Each instance of a batch looks as if it stood alone. -/
theorem buildAll_batch (registry : Registry) (hb : view.IsCompiled) {s s' : Stage}
    {items : List Json} {done all : List Instance} (hs : s.document.Tidy)
    (h : buildAll (build registry) view s items done = (s', .ok all)) :
    ∃ batch ts, all = done ++ batch ∧ Owned s.document s'.document ts batch ∧
      List.Forall₂ (fun item c => LooksAlone registry view item s'.document c) items batch := by
  induction items generalizing s done with
  | nil =>
    rw [buildAll] at h
    obtain ⟨rfl, hall⟩ := Prod.mk.inj h
    exact ⟨[], [], by rw [List.append_nil, Except.ok.inj hall], .nil hs, .nil⟩
  | cons item items ih =>
    have hone : EndsAlike (fun i => [i]) s.document .empty (build registry s view item)
        (instantiate registry ⟨.empty, []⟩ view none (some item)) :=
      build_alike_instantiate registry hb s ⟨.empty, []⟩ item hs tidy_empty
    rw [buildAll] at h
    rcases hbuilt : build registry s view item with ⟨s₁, e | i⟩
    · rw [hbuilt] at h
      cases (Prod.mk.inj h).2
    · rw [hbuilt] at h hone
      generalize halone : instantiate registry ⟨.empty, []⟩ view none (some item) = r at hone
      rcases hone with @⟨_, t, _, _, lockstep⟩
      obtain ⟨f, c, renamed, rfl⟩ := lockstep.exists_renamed
      obtain ⟨batch, ts, rfl, howned, hbatch⟩ := ih renamed.left.grown.tidy h
      have hheld := renamed.left.grown.head_holds
      have hretains : s₁.document.Retains s'.document i.root := by
        rw [← renamed.left.root_eq]
        refine hheld.retains renamed.left.grown.head_nodup fun x hx => ?_
        obtain ⟨n, hn⟩ := hheld.live x hx
        exact howned.grown.keeps hn
      have hown : i.descend? [] = some i := rfl
      have hlook : LooksAlone registry view item s₁.document i :=
        ⟨t, _, halone, (renamed.appearance hown).symm⟩
      exact ⟨i :: batch, c :: ts, by rw [List.append_assoc, List.singleton_append],
        renamed.left.append howned, .cons (hlook.retained hretains) hbatch⟩

/-! ### Where a value renews instances -/

/-- Where the instances of a property are. -/
def anchor? (i : Instance) (name : String) : Option NodeId :=
  match i.accessors.get? name with
  | some (.iterating a _ _) => some a
  | _ => none

/-- Where instances are renewed if a property takes a value. -/
def renewsAt (i : Instance) (name : String) (v : Json) : Option NodeId :=
  match v with
  | .array _ => i.anchor? name
  | _ => none

/-- The properties whose instances are renewed at a node when values are taken. -/
def renewedAt (i : Instance) (x : NodeId) (values : List (String × Json)) : List String :=
  (values.filter fun p => i.renewsAt p.1 p.2 = some x).map (·.1)

theorem anchor?_eq_some : i.anchor? name = some a ↔
    ∃ view cs, i.accessors.get? name = some (.iterating a view cs) := by
  unfold anchor?
  rcases i.accessors.get? name with _ | ⟨ls⟩ | ⟨b, view, cs⟩ <;> simp

theorem anchor?_of_renewsAt (h : i.renewsAt name v = some a) : i.anchor? name = some a := by
  cases v <;> first | exact h | cases h

theorem renewsAt_eq_none (h : i.anchor? name = none) (v : Json) : i.renewsAt name v = none := by
  cases v <;> first | exact h | rfl

theorem renewedAt_cons (i : Instance) (x : NodeId) (name : String) (v : Json)
    (values : List (String × Json)) :
    i.renewedAt x ((name, v) :: values) = i.renewedAt x [(name, v)] ++ i.renewedAt x values := by
  rw [renewedAt, renewedAt, renewedAt, ← List.map_append, ← List.filter_append, List.singleton_append]

theorem mem_renewedAt (h : name ∈ i.renewedAt x values) :
    name ∈ values.map (·.1) ∧ i.anchor? name = some x := by
  obtain ⟨⟨n, v⟩, hp, rfl⟩ := List.mem_map.mp h
  obtain ⟨hmem, hrenews⟩ := List.mem_filter.mp hp
  exact ⟨List.mem_map_of_mem hmem, anchor?_of_renewsAt (by simpa using hrenews)⟩

end Instance

theorem Instance.Embedded.disjoint_rootsOf {d : Document} {i : Instance} {names names' : List String}
    (h : i.Embedded d) (hdisj : ∀ n ∈ names, n ∉ names') : ∀ k ∈ i.rootsOf names, k ∉ i.rootsOf names' := by
  intro k hk hk'
  obtain ⟨n, hn, c, hc, rfl⟩ := Instance.mem_rootsOf.mp hk
  obtain ⟨n', hn', c', hc', e⟩ := Instance.mem_rootsOf.mp hk'
  have hne : n ≠ n' := fun e => hdisj n hn (e.symm ▸ hn')
  exact h.root_ne_of_ne hne hc hc' e.symm

theorem Owned.beside {d₀ d d₁ : Document} {s : Shape} {ts : List Shape} {i : Instance}
    {batch : List Instance} (h : Owned d₀ d [s] [i]) (h' : Owned d d₁ ts batch) :
    Owned d₀ d₁ (s :: (ts ++ [])) (i :: (batch ++ [])) := by
  rw [List.append_nil, List.append_nil]
  exact h.append h'

/-- What comes of a value that a property is to take. -/
inductive Taken (registry : Registry) (s : Stage) (g : Instance) (name : String) (v : Json)
    (o : Outcome) : Prop where
  | still (root : o.self.root = g.root) (accessors : o.self.accessors = g.accessors)
      (links : ∀ c p, s.document.Link c p → o.stage.document.Link c p)
      (children : ∀ x, o.stage.document.children x = s.document.children x)
      (retains : ∀ c ∈ g.generated, s.document.Retains o.stage.document c.root)
      (reason : o.error = none → g.renewsAt name v = none)
  | renewed {a : NodeId} {view : Blueprint} {cs batch : List Instance} {items : List Json}
      {d₁ : Document} {ts : List Shape}
      (get : g.accessors.get? name = some (.iterating a view cs)) (value : v = .array items)
      (owned : Owned s.document d₁ ts batch)
      (alone : List.Forall₂ (fun item c => Instance.LooksAlone registry view item d₁ c) items batch)
      (root : o.self.root = g.root)
      (accessors : o.self.accessors = (g.withAccessor name (.iterating a view batch)).accessors)
      (document : o.stage.document = d₁.renewed (g.children name) batch a)
      (error : o.error = none)

section Taking

variable {d₀ : Document} {t : Shape} {i g : Instance} {way : List (String × Nat)} {s : Stage}

theorem Owned.taken_bound (h : Owned d₀ s.document [t] [i]) (hg : i.descend? way = some g)
    (registry : Registry) {name : String} {ls : List BoundLocation}
    (hget : g.accessors.get? name = some (.bound ls)) (v : Json) :
    Taken registry s g name v (g.assignBound s name ls v) := by
  obtain ⟨hgs, hgi⟩ := (h.embedded i List.mem_cons_self).descend? hg
  have hlinks : ∀ x, (Instance.writeLocations s.document name (g.withValue name v).values
      ls).links? x = s.document.links? x := Instance.links?_writeLocations s.document ls
  refine .still rfl rfl (fun c p hlink => (link_congr (hlinks c) (hlinks p)).mpr hlink)
    (fun x => ?_) (fun c hc => h.retains hg hc fun x hx => ?_) fun _ => ?_
  · exact children_congr (hlinks x)
  · have hwritten : ls.filter (·.place.owner = x) = [] := by
      rw [List.filter_eq_nil_iff]
      intro r hr
      rw [decide_eq_true_eq]
      rintro rfl
      exact hgs.own_not_under (h.rooted hgi) (hgs.own_of_get? hget _ (List.mem_map_of_mem hr)) hc hx
    change (Instance.writeLocations s.document name _ ls).node? x = _
    rw [Instance.node?_writeLocations, hwritten]
    cases s.document.node? x <;> rfl
  · exact Instance.renewsAt_eq_none (by rw [Instance.anchor?, hget]) v

theorem Owned.taken_items (h : Owned d₀ s.document [t] [i]) (hg : i.descend? way = some g)
    (registry : Registry) {name : String} {a : NodeId} {view : Blueprint} {former : List Instance}
    (hget : g.accessors.get? name = some (.iterating a view former)) (items : List Json) :
    Taken registry s g name (.array items)
      (Instance.assignItems (Instance.build registry) s g name a view former items) := by
  obtain ⟨hgs, -⟩ := (h.embedded i List.mem_cons_self).descend? hg
  have hview := (hgs.placed_of_get? hget).1
  have htidy := h.grown.tidy
  rw [Instance.assignItems]
  rcases hall : Instance.buildAll (Instance.build registry) view s items [] with ⟨s', e | batch⟩
  · have halike := (Instance.build_alike registry hview).buildAll items (Lockstep.nil htidy htidy)
    rw [hall] at halike
    rcases halike with _ | ⟨_, lockstep⟩
    obtain ⟨f, ss, renamed, -⟩ := lockstep.same
    obtain rfl : ss = [] := List.map_eq_nil_iff.mp renamed.left.roots
    have hsame : ∀ x, s'.document.node? x = s.document.node? x := fun x =>
      renamed.left.grown.frame x (by simp)
    refine .still rfl rfl (fun c p hlink => renamed.left.grown.link hlink) (fun x => ?_)
      (fun c hc => h.retains hg hc fun x _ => hsame x) fun he => by cases he
    rw [Document.children, Document.children, hsame]
  · obtain ⟨new, ts, rfl, howned, halone⟩ := Instance.buildAll_batch registry hview htidy hall
    exact .renewed hget rfl howned halone rfl rfl (by rw [Instance.children_of_get? hget]; rfl) rfl

theorem Owned.taken (h : Owned d₀ s.document [t] [i]) (hg : i.descend? way = some g)
    (registry : Registry) (name : String) (v : Json) :
    Taken registry s g name v (Instance.assignWith (Instance.build registry) s g name v) := by
  have hsame : ∀ c ∈ g.generated, s.document.Retains s.document c.root :=
    fun c hc => h.retains hg hc fun _ _ => rfl
  rw [Instance.assignWith]
  rcases hget : g.accessors.get? name with _ | ⟨ls⟩ | ⟨a, view, former⟩
  · exact .still rfl rfl (fun _ _ hlink => hlink) (fun _ => rfl) hsame fun _ =>
      Instance.renewsAt_eq_none (by rw [Instance.anchor?, hget]) v
  · exact h.taken_bound hg registry hget v
  · dsimp only
    split
    · exact h.taken_items hg registry hget _
    · rename_i hnot
      exact .still rfl rfl (fun _ _ hlink => hlink) (fun _ => rfl) hsame fun _ => by
        cases v <;> first | rfl | exact absurd rfl (hnot _)

/-- Between two states of an instance the properties of some names have taken values. All that is kept
for other properties is as it was. -/
structure Kept (names : List String) (d : Document) (g : Instance) (d' : Document) (g' : Instance) :
    Prop where
  root : g'.root = g.root
  anchors : ∀ n, g'.anchor? n = g.anchor? n
  own : ∀ x, d.Own g.stops x g.root → d'.Own g'.stops x g'.root
  others : ∀ n ∉ names, g'.children n = g.children n ∧ ∀ c ∈ g.children n, d.Retains d' c.root

namespace Kept

variable {d d' d'' : Document} {g' g'' : Instance} {names names' : List String}

theorem trans (h : Kept names d g d' g') (h' : Kept names' d' g' d'' g'') :
    Kept (names ++ names') d g d'' g'' where
  root := h'.root.trans h.root
  anchors n := (h'.anchors n).trans (h.anchors n)
  own x hx := h'.own x (h.own x hx)
  others n hn := by
    rw [List.mem_append, not_or] at hn
    obtain ⟨hchildren, hretains⟩ := h.others n hn.1
    obtain ⟨hchildren', hretains'⟩ := h'.others n hn.2
    rw [hchildren] at hchildren' hretains'
    exact ⟨hchildren', fun c hc => (hretains c hc).trans (hretains' c hc)⟩

theorem mono (h : Kept names d g d' g') (hsub : names ⊆ names') : Kept names' d g d' g' :=
  ⟨h.root, h.anchors, h.own, fun n hn => h.others n fun hmem => hn (hsub hmem)⟩

theorem renewedAt (h : Kept names d g d' g') (x : NodeId) (values : List (String × Json)) :
    g'.renewedAt x values = g.renewedAt x values := by
  have hrenews : ∀ n v, g'.renewsAt n v = g.renewsAt n v := fun n v => by
    cases v <;> first | rfl | exact h.anchors n
  simp only [Instance.renewedAt, hrenews]

theorem rootsOf (h : Kept names d g d' g') {ns : List String} (hdisj : ∀ n ∈ ns, n ∉ names) :
    g'.rootsOf ns = g.rootsOf ns :=
  List.flatMap_congr fun n hn => by rw [(h.others n (hdisj n hn)).1]

/-- A value that is taken first and those that are taken after it together renew the instances of all
their properties. -/
theorem children_trans {name : String} {v : Json} {values : List (String × Json)} {x : NodeId}
    (h : Kept [name] d g d' g') (h' : Kept names d' g' d'' g'') (hvalues : name ∉ values.map (·.1))
    (hnames : name ∉ names) (hs : g'.Embedded d')
    (first : d'.children x = (d.children x).filter (· ∉ g.rootsOf (g.renewedAt x [(name, v)])) ++
      g'.rootsOf (g.renewedAt x [(name, v)]))
    (rest : d''.children x = (d'.children x).filter (· ∉ g'.rootsOf (g'.renewedAt x values)) ++
      g''.rootsOf (g'.renewedAt x values)) :
    d''.children x = (d.children x).filter (· ∉ g.rootsOf (g.renewedAt x ((name, v) :: values))) ++
      g''.rootsOf (g.renewedAt x ((name, v) :: values)) := by
  have hnow : ∀ n ∈ g.renewedAt x [(name, v)], n = name := fun n hmem => by
    simpa using (Instance.mem_renewedAt hmem).1
  have hlater : ∀ n ∈ g.renewedAt x values, n ≠ name := by
    rintro n hmem rfl
    exact hvalues (Instance.mem_renewedAt hmem).1
  have hold : g'.rootsOf (g.renewedAt x values) = g.rootsOf (g.renewedAt x values) :=
    h.rootsOf fun n hmem => by simpa using hlater n hmem
  have hnew : g''.rootsOf (g.renewedAt x [(name, v)]) = g'.rootsOf (g.renewedAt x [(name, v)]) :=
    h'.rootsOf fun n hmem => hnow n hmem ▸ hnames
  -- what has just come is not what later values renew
  have hstay : (g'.rootsOf (g.renewedAt x [(name, v)])).filter
      (· ∉ g'.rootsOf (g.renewedAt x values)) = g'.rootsOf (g.renewedAt x [(name, v)]) := by
    refine List.filter_eq_self.mpr fun k hk => decide_eq_true ?_
    exact hs.disjoint_rootsOf (fun n hmem hmem' => hlater n hmem' (hnow n hmem)) k hk
  rw [rest, h.renewedAt, first, List.filter_append, hstay, hold, List.filter_filter,
    Instance.renewedAt_cons g x name v values, Instance.rootsOf_append, Instance.rootsOf_append, hnew,
    List.append_assoc]
  congr 1
  refine List.filter_congr fun k _ => ?_
  rw [← Bool.decide_and, decide_eq_decide, List.mem_append, not_or, and_comm]

end Kept

theorem Owned.kept (h : Owned d₀ s.document [t] [i]) (hg : i.descend? way = some g) :
    Kept [] s.document g s.document g :=
  ⟨rfl, fun _ => rfl, fun _ hx => hx, fun _ _ => ⟨rfl, fun _ hc =>
    h.retains hg (Instance.mem_generated_of_mem_children hc) fun _ _ => rfl⟩⟩

namespace Taken

variable {registry : Registry} {name : String} {v : Json} {o : Outcome} {x : NodeId}

theorem kept (ha : Taken registry s g name v o) (h : Owned d₀ s.document [t] [i])
    (hg : i.descend? way = some g) : Kept [name] s.document g o.stage.document o.self := by
  obtain ⟨hgs, hgi⟩ := (h.embedded i List.mem_cons_self).descend? hg
  cases ha with
  | still root accessors links children retains reason =>
    have hchildren : ∀ n, o.self.children n = g.children n := fun n => by
      rw [Instance.children_eq, Instance.children_eq, accessors]
    have hstops := Instance.stops_congr accessors
    refine ⟨root, fun n => ?_, fun x hx => ?_, fun n _ => ⟨hchildren n, fun c hc =>
      retains c (Instance.mem_generated_of_mem_children hc)⟩⟩
    · rw [Instance.anchor?, Instance.anchor?, accessors]
    · rw [hstops, root]
      exact hx.of_links fun c p hlink hstop _ => ⟨links c p hlink, hstop⟩
  | @renewed a view cs batch items d₁ ts get value owned alone root accessors document error =>
    have hall := h.beside owned
    have hanchor := (hgs.own_of_get? get a List.mem_cons_self).grown owned.grown
    have hstops := Instance.stops_congr accessors
    refine ⟨root, fun n => ?_, fun x hx => ?_, fun n hn => ⟨?_, fun c hc => ?_⟩⟩
    · rw [Instance.anchor?, Instance.anchor?, accessors, Instance.withAccessor]
      by_cases hne : n = name
      · rw [hne, Table.get?_put_self, get]
      · rw [Table.get?_put_of_ne _ _ hne]
    · rw [document, hstops, root]
      exact hall.own_renewed name owned.roots hg hanchor rfl (hx.grown owned.grown)
    · rw [Instance.children_eq, Instance.children_eq, accessors, Instance.withAccessor,
        Table.get?_put_of_ne _ _ (by simpa using hn)]
    · have hmem := Instance.mem_generated_of_mem_children hc
      have hbuilt : s.document.Retains d₁ c.root := h.retains hg hmem fun x hx => by
        have hup := (hx.trans (hgs.under_root hmem)).trans hgi
        obtain ⟨m, hm⟩ := h.grown.head_holds.live x (h.mem_ids_iff.mpr hup)
        exact owned.grown.keeps hm
      rw [document]
      exact hbuilt.trans (hall.retains_renewed owned.roots hg hanchor (by simpa using hn) hc)

theorem children (ha : Taken registry s g name v o) (h : Owned d₀ s.document [t] [i])
    (hg : i.descend? way = some g) (hx : s.document.Own g.stops x g.root) (error : o.error = none) :
    o.stage.document.children x =
      (s.document.children x).filter (· ∉ g.rootsOf (g.renewedAt x [(name, v)])) ++
        o.self.rootsOf (g.renewedAt x [(name, v)]) := by
  cases ha with
  | still root accessors links children retains reason =>
    rw [children, Instance.renewedAt, List.filter_cons, reason error]
    simp [Instance.rootsOf]
  | @renewed a view cs batch items d₁ ts get value owned alone root accessors document _ =>
    subst value
    have hall := h.beside owned
    obtain ⟨hgs, hgi⟩ := (h.embedded i List.mem_cons_self).descend? hg
    have hanchor := (hgs.own_of_get? get a List.mem_cons_self).grown owned.grown
    obtain ⟨m, hm⟩ := h.grown.head_holds.live x (h.mem_ids_of_own hg hx)
    have hbuilt : d₁.children x = s.document.children x := by
      rw [Document.children, Document.children, owned.grown.keeps hm]
    have hrenews : g.renewsAt name (.array items) = some a := Instance.anchor?_eq_some.mpr ⟨_, _, get⟩
    rw [document, hall.children_renewed owned.roots hg hanchor name (hx.grown owned.grown), hbuilt,
      Instance.renewedAt, List.filter_cons, hrenews]
    by_cases hxa : x = a
    · subst hxa
      have hbatch : o.self.children name = batch := by
        rw [Instance.children_eq, accessors, Instance.withAccessor, Table.get?_put_self]
        rfl
      simp [Instance.rootsOf, hbatch]
    · have hnot : ∀ k ∈ s.document.children x, k ∉ g.rootsOf [name] := by
        intro k hk hmem
        obtain ⟨n, hn, z, hz, rfl⟩ := Instance.mem_rootsOf.mp hmem
        obtain rfl := List.mem_singleton.mp hn
        rw [Instance.children_of_get? get] at hz
        exact hxa ((h.anchor_unique hg get hz (hx.under.trans hgi)).mp hk)
      have hne : ¬ a = x := fun e => hxa e.symm
      rw [List.filter_eq_self.mpr (by simpa using hnot)]
      simp [Instance.rootsOf, hxa, hne]

theorem children_of_error (ha : Taken registry s g name v o) (error : o.error ≠ none) (x : NodeId) :
    o.stage.document.children x = s.document.children x := by
  cases ha with
  | still root accessors links children retains reason => exact children x
  | renewed get value owned alone root accessors document success => exact absurd success error

theorem batch {items : List Json} {view : Blueprint} {a : NodeId} {cs : List Instance}
    (ha : Taken registry s g name (.array items) o) (h : Owned d₀ s.document [t] [i])
    (hg : i.descend? way = some g) (hget : g.accessors.get? name = some (.iterating a view cs))
    (error : o.error = none) :
    List.Forall₂ (fun item c => Instance.LooksAlone registry view item o.stage.document c) items
        (o.self.children name) ∧
      ∀ c ∈ g.children name, ∀ x, s.document.Under x c.root →
        o.stage.document.node? x = none := by
  cases ha with
  | still root accessors links children retains reason =>
    have hrenews : g.renewsAt name (.array items) = some a :=
      Instance.anchor?_eq_some.mpr ⟨_, _, hget⟩
    rw [reason error] at hrenews
    cases hrenews
  | @renewed b view' cs' batch items' d₁ ts get value owned alone root accessors document _ =>
    rw [hget, Option.some.injEq, Accessor.iterating.injEq] at get
    obtain ⟨rfl, rfl, rfl⟩ := get
    obtain rfl := Json.array.inj value
    have hall := h.beside owned
    have hgs := ((h.embedded i List.mem_cons_self).descend? hg).1
    have hanchor := (hgs.own_of_get? hget a List.mem_cons_self).grown owned.grown
    have hbatch : o.self.children name = batch := by
      rw [Instance.children_eq, accessors, Instance.withAccessor, Table.get?_put_self]
      rfl
    rw [hbatch, document]
    refine ⟨?_, fun c hc x hx => ?_⟩
    · exact Instance.LooksAlone.retainedAll alone fun c hc =>
        hall.retains_batch owned.roots hg hanchor name hc
    · exact hall.node?_renewed_of_under owned.roots hg hanchor hc (Under.grown hx owned.grown)

end Taken

end Taking

/-! ### Runs of assignments -/

namespace LockstepAt

variable {S : Setting} {watch : NodeId → NodeId → Prop} {s t : Stage} {g k : Instance}

section Runs

variable (registry : Registry) (admits : ∀ view, S.admits view → view.IsCompiled)
include admits

theorem kept_assignAll (values : List (String × Json))
    (h : LockstepAt S watch s.document t.document g k) :
    Kept (values.map (·.1)) s.document g
      (Instance.assignAllWith (Instance.build registry) s g values).stage.document
      (Instance.assignAllWith (Instance.build registry) s g values).self := by
  induction values generalizing s t g k with
  | nil =>
    obtain ⟨_, _, _, hg, renamed, -⟩ := h.exists_state
    exact renamed.left.kept hg
  | cons value values ih =>
    obtain ⟨name, v⟩ := value
    have hone := (h.assign (fun view hview => Instance.build_alike registry (admits view hview))
      name v).lockstepAt
    obtain ⟨_, _, _, hg, renamed, -⟩ := h.exists_state
    have hkept := (renamed.left.taken hg registry name v).kept renamed.left hg
    rw [Instance.assignAllWith]
    generalize Instance.assignWith (Instance.build registry) s g name v = o at hone hkept ⊢
    generalize Instance.assignWith (Instance.build registry) t k name v = o' at hone
    obtain ⟨s₁, g₁, error⟩ := o
    cases error with
    | none => exact hkept.trans (ih hone)
    | some e => exact hkept.mono (by simp)

theorem children_assignAll (values : List (String × Json)) (hn : (values.map (·.1)).Nodup)
    (h : LockstepAt S watch s.document t.document g k) {x : NodeId}
    (hx : s.document.Own g.stops x g.root) :
    ∃ taken rest, values = taken ++ rest ∧
      ((Instance.assignAllWith (Instance.build registry) s g values).error = none → rest = []) ∧
      (Instance.assignAllWith (Instance.build registry) s g values).stage.document.children x =
        (s.document.children x).filter (· ∉ g.rootsOf (g.renewedAt x taken)) ++
          (Instance.assignAllWith (Instance.build registry) s g values).self.rootsOf
            (g.renewedAt x taken) := by
  induction values generalizing s t g k with
  | nil =>
    refine ⟨[], [], rfl, fun _ => rfl, ?_⟩
    exact ((List.append_nil _).trans (g.filter_rootsOf_nil _)).symm
  | cons value values ih =>
    obtain ⟨name, v⟩ := value
    rw [List.map_cons, List.nodup_cons] at hn
    have hone := (h.assign (fun view hview => Instance.build_alike registry (admits view hview))
      name v).lockstepAt
    obtain ⟨_, _, _, hg, renamed, -⟩ := h.exists_state
    have htaken := renamed.left.taken hg registry name v
    have hkept := htaken.kept renamed.left hg
    rw [Instance.assignAllWith]
    generalize Instance.assignWith (Instance.build registry) s g name v = o at hone hkept htaken ⊢
    generalize Instance.assignWith (Instance.build registry) t k name v = o' at hone
    obtain ⟨s₁, g₁, error⟩ := o
    cases error with
    | some e =>
      have hsame := htaken.children_of_error (by simp) x
      refine ⟨[], (name, v) :: values, rfl, ?_, ?_⟩
      · intro he
        cases he
      · exact hsame.trans ((List.append_nil _).trans (g.filter_rootsOf_nil _)).symm
    | none =>
      have hfirst := htaken.children renamed.left hg hx rfl
      obtain ⟨taken, rest, rfl, hall, hchildren⟩ := ih hn.2 hone (hkept.own x hx)
      have hrest := kept_assignAll registry admits (taken ++ rest) hone
      dsimp only at hfirst hchildren hrest hkept ⊢
      generalize Instance.assignAllWith (Instance.build registry) s₁ g₁ (taken ++ rest) = o
        at hall hchildren hrest ⊢
      refine ⟨(name, v) :: taken, rest, rfl, hall, ?_⟩
      obtain ⟨_, _, _, hg₁, renamed₁, -⟩ := hone.exists_state
      have hembedded := ((renamed₁.left.embedded _ List.mem_cons_self).descend? hg₁).1
      refine hkept.children_trans hrest (fun hmem => hn.1 ?_) hn.1 hembedded hfirst hchildren
      rw [List.map_append]
      exact List.mem_append_left _ hmem

end Runs

end LockstepAt

end LiveMarkup
