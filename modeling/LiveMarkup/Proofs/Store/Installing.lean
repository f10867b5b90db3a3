import LiveMarkup.Proofs.Store.Lockstep
import LiveMarkup.Proofs.Instance.Binding

namespace LiveMarkup

open Document

theorem Document.Mirrors.decode?_eq {d d' : Document} {ids : List NodeId} {x : NodeId}
    (h : Mirrors d d' id ids) (hx : x ∈ ids) (path : Path) : d'.decode? x path = d.decode? x path := by
  have hlive : ∀ d : Document, d.contains x = (d.label? x).isSome := fun d => by
    rw [contains, label?, Option.isSome_map]
  have hplace : Place.rename id = id := by
    funext place
    cases place <;> rfl
  have hfollow := h.follow? hx path.frames
  rw [hplace, Option.map_id] at hfollow
  rw [decode?, decode?, hlive, hlive, ← h.labels x hx]
  exact if_congr Iff.rfl hfollow rfl

theorem Accessor.rename_congr {f f' : NodeId → NodeId} {a : Accessor Instance}
    (childless : a.children = []) (same : ∀ x ∈ a.handles, f' x = f x) :
    a.rename f' (Instance.rename f') = a.rename f (Instance.rename f) := by
  cases a with
  | bound ls =>
    rw [rename, rename]
    congr 1
    exact List.map_congr_left fun r hr =>
      BoundLocation.rename_congr (same _ (List.mem_map_of_mem hr))
  | iterating b view cs =>
    obtain rfl : cs = [] := childless
    rw [rename, rename, same b List.mem_cons_self]
    rfl

def Exposure.name : Exposure → String
  | .leaf name _ => name
  | .iterating name _ => name

namespace Exposure.Resolves

variable {d d' : Document} {root root' : NodeId} {e : Exposure} {a : String × Accessor Instance}
  {f : NodeId → NodeId}

theorem congr (h : Resolves d root e a)
    (same : ∀ path, d'.decode? root path = d.decode? root path) : Resolves d' root e a := by
  cases h with
  | leaf places => exact .leaf (by simpa only [same] using places)
  | iterating anchor => exact .iterating (by rw [same, anchor])

theorem rename (h : Resolves d root e a)
    (same : ∀ path, d'.decode? root' path = (d.decode? root path).map (Place.rename f)) :
    Resolves d' root' e (a.1, a.2.rename f (Instance.rename f)) := by
  cases h with
  | leaf places =>
    refine .leaf ?_
    have hmap := congrArg (List.map fun q : Option Place × Expression =>
      (q.1.map (Place.rename f), q.2)) places
    rw [List.map_map, List.map_map] at hmap
    simp only [same, List.map_map]
    exact hmap
  | iterating anchor => exact .iterating (by rw [same, anchor]; rfl)

theorem childless (h : Resolves d root e a) : a.2.children = [] := by
  cases h <;> rfl

theorem mem_ids {parent : Option NodeId} {c : Shape} (h : Resolves d c.id e a)
    (hc : d.Holds parent c) (hn : c.ids.Nodup) : ∀ x ∈ a.2.handles, x ∈ c.ids := by
  have howner : ∀ {path : Path} {place : Place}, d.decode? c.id path = some place →
      place.owner ∈ c.ids := by
    intro path place hplace
    have hbelow := hc.below_of_decode? hn hplace
    cases place with
    | node x => rwa [Below, hc.descendants hn] at hbelow
    | «attribute» x k =>
      rw [Below, hc.descendants hn] at hbelow
      exact hbelow.1
  cases h with
  | @leaf name rs ls places =>
    intro x hx
    obtain ⟨l, hl, rfl⟩ := List.mem_map.mp hx
    have hmem : (some l.place, l.expression) ∈ rs.map fun r => (d.decode? c.id r.path, r.expression) :=
      places ▸ List.mem_map_of_mem hl
    obtain ⟨r, -, hr⟩ := List.mem_map.mp hmem
    exact howner (Prod.mk.inj hr).1
  | iterating anchor =>
    intro x hx
    rw [List.mem_singleton.mp hx]
    exact howner anchor

theorem name_eq (h : Resolves d root e a) : a.1 = e.name := by
  cases h <;> rfl

theorem map_fst {es : List Exposure} {as : List (String × Accessor Instance)}
    (h : List.Forall₂ (Resolves d root) es as) : as.map (·.1) = es.map Exposure.name := by
  induction h with
  | nil => rfl
  | cons ha _ ih => rw [List.map_cons, List.map_cons, ha.name_eq, ih]

theorem exists_region {b : NodeId} {v : Blueprint} {cs : List Instance} (h : Resolves d root e a)
    (ha : a.2 = .iterating b v cs) : ∃ name g, e = .iterating name g ∧ v = g.view := by
  cases h with
  | leaf places => cases ha
  | iterating anchor =>
    obtain ⟨-, rfl, -⟩ := Accessor.iterating.inj ha
    exact ⟨_, _, rfl, rfl⟩

theorem bindExposure {s : Stage} {root : NodeId} (h : Resolves s.document root e a) (i : Instance) :
    (i.bindExposure s root e).1.document = Instance.removeRoots s.document (i.children a.1) ∧
      (i.bindExposure s root e).2.1 = i.withAccessor a.1 (i.joined a.1 a.2) := by
  cases h with
  | leaf places =>
    rw [Instance.bindExposure, Instance.resolveRecords_eq places]
    exact i.defineProperty_eq _ _ _
  | iterating anchor =>
    rw [Instance.bindExposure, anchor]
    exact i.defineProperty_eq _ _ _

end Exposure.Resolves

theorem Blueprint.mem_regions_of_mem_exposures {b : Blueprint} {name : String} {g : Region Blueprint}
    (h : Exposure.iterating name g ∈ b.exposures) : (name, g) ∈ b.regions.entries := by
  rw [Blueprint.exposures, List.mem_append] at h
  rcases h with h | h
  · obtain ⟨p, -, hp⟩ := List.mem_map.mp h
    cases hp
  · obtain ⟨r, hr, he⟩ := List.mem_map.mp h
    obtain ⟨rfl, rfl⟩ := Exposure.iterating.inj he
    exact hr

theorem Blueprint.IsCompiled.exists_resolved {b : Blueprint} {d d' : Document} {c : Shape}
    (h : b.IsCompiled) (hc : d.Copies d' c b.skeleton) :
    ∃ as, List.Forall₂ (Exposure.Resolves d' c.id) b.exposures as := by
  obtain ⟨ctx, l, ps, hv⟩ := h.exists_isView
  obtain ⟨ss, -, rfl, hexhibits⟩ := hv.exists_exhibits hc
  exact ⟨_, Instance.exposures_resolve hv hexhibits⟩

namespace Instance

variable {i j : Instance} {as : List (String × Accessor Instance)} {n : String} {a : Accessor Instance}

def joinedAll (i : Instance) : List (String × Accessor Instance) → Instance
  | [] => i
  | a :: as => (i.withAccessor a.1 (i.joined a.1 a.2)).joinedAll as

theorem joined_congr (h : j.accessors.get? n = i.accessors.get? n) (a : Accessor Instance) :
    j.joined n a = i.joined n a := by
  unfold joined
  rw [h]

theorem get?_joinedAll_of_not_mem (hn : n ∉ as.map (·.1)) :
    (i.joinedAll as).accessors.get? n = i.accessors.get? n := by
  induction as generalizing i with
  | nil => rfl
  | cons e as ih =>
    rw [List.map_cons, List.mem_cons, not_or] at hn
    rw [joinedAll, ih hn.2]
    exact Table.get?_put_of_ne _ _ hn.1

theorem get?_joinedAll_of_mem (hd : (as.map (·.1)).Nodup) (ha : (n, a) ∈ as) :
    (i.joinedAll as).accessors.get? n = some (i.joined n a) := by
  induction as generalizing i with
  | nil => cases ha
  | cons e as ih =>
    rw [List.map_cons, List.nodup_cons] at hd
    rcases List.mem_cons.mp ha with rfl | ha
    · rw [joinedAll, get?_joinedAll_of_not_mem hd.1]
      exact Table.get?_put_self _ _ _
    · have hne : n ≠ e.1 := fun h => hd.1 (h ▸ List.mem_map_of_mem ha)
      rw [joinedAll, ih hd.2 ha, joined_congr (Table.get?_put_of_ne _ _ hne)]

theorem mem_names_joinedAll :
    n ∈ (i.joinedAll as).accessors.names ↔ n ∈ i.accessors.names ∨ n ∈ as.map (·.1) := by
  induction as generalizing i with
  | nil => simp [joinedAll]
  | cons e as ih =>
    rw [joinedAll, ih, withAccessor, Table.mem_names_put, List.map_cons, List.mem_cons]
    tauto

end Instance

/-- The instance with one more copy of a blueprint's skeleton, and bound to it. -/
def Instance.install (s : Stage) (i : Instance) (b : Blueprint) : Stage × Instance :=
  let (d, root) := s.document.graft b.skeleton
  let (s, i, _) := i.bind (s.withDocument (d.append i.root root)) b root
  (s, i)

theorem Instance.extend_eq (s : Stage) (i : Instance) (b : Blueprint) : i.extend s b =
    (assignAllWith (build (i.install s b).2.registry) (i.install s b).1 (i.install s b).2
      ((i.install s b).2.heldValues b), (s.document.graft b.skeleton).2) := rfl

namespace LockstepAt

variable {S : Setting} {c : Shape} {f : NodeId → NodeId} {d e d₁ : Document} {parent : Option NodeId}
  {g k : Instance} {es : List Exposure} {as : List (String × Accessor Instance)}

theorem node?_removeRoots_copy (h : LockstepAt S (fun x y => x ∈ c.ids ∧ y = f x) d e g k)
    (mirrors : Mirrors d₁ d id c.ids) (name : String) {x : NodeId} (hx : x ∈ c.ids) :
    (Instance.removeRoots d (g.children name)).node? x = d.node? x := by
  refine h.node?_removeRoots name ⟨hx, rfl⟩ fun z hz => ⟨f z, ?_, rfl⟩
  have hchildren : d.children x = d₁.children x := by simpa using mirrors.children x hx
  exact mirrors.closed x hx z (hchildren ▸ hz)

/-- One property that a fresh copy resolves is bound in both runs. The copy is as it was. -/
theorem bindExposure {e : Exposure} {a : String × Accessor Instance} (held : d₁.Holds parent c)
    (nodup : c.ids.Nodup) (resolves : e.Resolves d₁ c.id a)
    (views : ∀ name region, e = .iterating name region →
      region.view.IsCompiled ∧ S.admits region.view) {s t : Stage}
    (h : LockstepAt S (fun x y => x ∈ c.ids ∧ y = f x) s.document t.document g k)
    (mirrors : Mirrors d₁ s.document id c.ids) :
    LockstepAt S (fun x y => x ∈ c.ids ∧ y = f x) (g.bindExposure s c.id e).1.document
        (k.bindExposure t (f c.id) e).1.document (g.bindExposure s c.id e).2.1
        (k.bindExposure t (f c.id) e).2.1 ∧
      Cleared [e.name] c.ids s.document g (g.bindExposure s c.id e).1.document
        (g.bindExposure s c.id e).2.1 ∧
      (g.bindExposure s c.id e).2.1 = g.withAccessor a.1 (g.joined a.1 a.2) ∧
      Mirrors d₁ (g.bindExposure s c.id e).1.document id c.ids := by
  obtain ⟨f', hf', hdecode⟩ := h.exists_decode
  have hleft : e.Resolves s.document c.id a := resolves.congr (mirrors.decode?_eq c.id_mem_ids)
  have hright := hleft.rename fun path => hdecode c.id (f c.id) path ⟨c.id_mem_ids, rfl⟩
  obtain ⟨hd, hg⟩ := hleft.bindExposure g
  obtain ⟨he, hk⟩ := hright.bindExposure k
  have hids := resolves.mem_ids held nodup
  rw [hd, hg, he, hk, ← resolves.name_eq]
  refine ⟨?_, ?_, rfl, fun x hx => ?_, fun x hx => ?_, mirrors.closed⟩
  · refine h.define a.1 resolves.childless (fun x hx => ?_) (fun b v cs hb => ?_) fun f'' hf'' => ?_
    · exact h.own ⟨hids x hx, rfl⟩
    · obtain ⟨name, region, rfl, rfl⟩ := resolves.exists_region hb
      exact views name region rfl
    · refine Accessor.rename_congr resolves.childless fun x hx => ?_
      rw [← hf' x (f x) ⟨hids x hx, rfl⟩, ← hf'' x (f x) ⟨hids x hx, rfl⟩]
  · refine h.cleared a.1 (Instance.children_joined resolves.childless) fun b view cs hb => hids b ?_
    rw [Instance.eq_of_joined_eq_iterating hb]
    exact List.mem_cons_self
  · exact (congrArg (Option.map Node.label) (h.node?_removeRoots_copy mirrors a.1 hx)).trans
      (mirrors.labels x hx)
  · exact (congrArg (fun n => (Option.map Node.children n).getD [])
      (h.node?_removeRoots_copy mirrors a.1 hx)).trans (mirrors.children x hx)

/-- What a fresh copy resolves is bound in both runs. Nothing that is bound before it concerns the
copy. -/
theorem bindExposures (held : d₁.Holds parent c) (nodup : c.ids.Nodup)
    (resolves : List.Forall₂ (Exposure.Resolves d₁ c.id) es as)
    (views : ∀ name region, Exposure.iterating name region ∈ es →
      region.view.IsCompiled ∧ S.admits region.view) {s t : Stage}
    (h : LockstepAt S (fun x y => x ∈ c.ids ∧ y = f x) s.document t.document g k)
    (mirrors : Mirrors d₁ s.document id c.ids) {root root' : NodeId} (hroot : c.id = root)
    (hroot' : f c.id = root') :
    LockstepAt S (fun x y => x ∈ c.ids ∧ y = f x) (g.bindExposures s root es).1.document
        (k.bindExposures t root' es).1.document (g.bindExposures s root es).2.1
        (k.bindExposures t root' es).2.1 ∧
      Cleared (es.map Exposure.name) c.ids s.document g (g.bindExposures s root es).1.document
        (g.bindExposures s root es).2.1 ∧
      (g.bindExposures s root es).2.1 = g.joinedAll as := by
  subst hroot hroot'
  induction resolves generalizing s t g k with
  | nil => exact ⟨h, .refl _ _ _, rfl⟩
  | @cons e a es as ha _ ih =>
    obtain ⟨hfirst, hcleared, hg, hmirrors⟩ := bindExposure held nodup ha
      (fun name region he => views name region (he ▸ List.mem_cons_self)) h mirrors
    obtain ⟨hlock, hrest, hjoined⟩ :=
      ih (fun name region hmem => views name region (List.mem_cons_of_mem _ hmem)) hfirst hmirrors
    refine ⟨hlock, hcleared.trans hrest, hjoined.trans ?_⟩
    rw [hg, Instance.joinedAll]

theorem install {watch : NodeId → NodeId → Prop} {b : Blueprint} {s t : Stage}
    (h : LockstepAt S watch s.document t.document g k) (compiled : b.IsCompiled)
    (views : ∀ name region, (name, region) ∈ b.regions.entries → S.admits region.view) :
    ∃ (c : Shape) (f : NodeId → NodeId), c.id = (s.document.graft b.skeleton).2 ∧
      f c.id = (t.document.graft b.skeleton).2 ∧
      LockstepAt S (fun x y => x ∈ c.ids ∧ y = f x) (g.install s b).1.document
        (k.install t b).1.document (g.install s b).2 (k.install t b).2 ∧
      Extended (b.exposures.map Exposure.name) c s.document g (g.install s b).1.document
        (g.install s b).2 := by
  obtain ⟨c, f, hid, hid', hc, hmirrors, hlock⟩ := h.attach b.skeleton
  obtain ⟨as, has⟩ := compiled.exists_resolved hc
  obtain ⟨hbound, hcleared, -⟩ := LockstepAt.bindExposures hc.holds hc.nodup has
    (fun name region hmem => ⟨compiled.region (Blueprint.mem_regions_of_mem_exposures hmem),
      views name region (Blueprint.mem_regions_of_mem_exposures hmem)⟩)
    (s := s.withDocument _) (t := t.withDocument _) hlock hmirrors hid hid'
  refine ⟨c, f, hid, hid', hbound, ?_⟩
  obtain ⟨_, _, i, hg, renamed, -⟩ := h.exists_state
  refine renamed.left.extended hg hc ?_
  rw [hid]
  exact hcleared

theorem plant {d e : Document} {s t : Stage} {b : Blueprint} (admits : Blueprint → Prop)
    (hd : d.Tidy) (he : e.Tidy) (compiled : b.IsCompiled)
    (views : ∀ name region, (name, region) ∈ b.regions.entries → admits region.view)
    (hs : s.document = (d.graft b.skeleton).1) (ht : t.document = (e.graft b.skeleton).1)
    (className : String) (component : Component) (registry : Registry) :
    let i := Instance.new (d.graft b.skeleton).2 className component registry
    let j := Instance.new (e.graft b.skeleton).2 className component registry
    ∃ watch, LockstepAt ⟨⟨d, 0⟩, (d.graft b.skeleton).1, d, e, i, j, [], ⟨i, rfl⟩, ⟨j, rfl⟩, admits⟩ watch
      (i.bind s b i.root).1.document (j.bind t b j.root).1.document (i.bind s b i.root).2.1
      (j.bind t b j.root).2.1 := by
  intro i j
  obtain ⟨f, c, hj, hrenamed, hc, hc'⟩ := Renamed.plant (i := i) (j := j) hd he b.skeleton rfl rfl rfl
  obtain ⟨as, has⟩ := compiled.exists_resolved hc
  have hid : c.id = i.root := hrenamed.left.root_eq
  have hid' : f c.id = j.root := by rw [hj, Instance.root_rename, hid]
  have hstep : EngineState.Step ⟨d, 0⟩ [] ⟨(d.graft b.skeleton).1, i ::ₘ 0⟩ := .plant b.skeleton rfl rfl
  have hown : ∀ x ∈ c.ids, (d.graft b.skeleton).1.Own i.stops x i.root := by
    intro x hx
    have hup := hc.holds.mem_ids_iff.mp hx
    rw [hid] at hup
    exact Relation.ReflTransGen.mono (fun _ _ hlink => ⟨hlink, List.not_mem_nil⟩) _ _ hup
  have hlock : LockstepAt
      ⟨⟨d, 0⟩, (d.graft b.skeleton).1, d, e, i, j, [], ⟨i, rfl⟩, ⟨j, rfl⟩, admits⟩
      (fun x y => x ∈ c.ids ∧ y = f x) s.document t.document i j := by
    rw [hs, ht]
    refine ⟨⟨f, c, hrenamed, hj, fun x y hxy => ⟨hown x hxy.1, hxy.2⟩⟩, fun n a view cs hget => ?_,
      EngineState.Reaches.step hstep, .refl⟩
    cases hget
  have hmirrors : Mirrors (d.graft b.skeleton).1 s.document id c.ids := by
    rw [hs]
    exact ⟨fun x _ => rfl, fun x _ => by simp, fun x hx y hy => (hc.holds.children_subset hx hy).1⟩
  exact ⟨_, (LockstepAt.bindExposures hc.holds hc.nodup has
    (fun name region hmem => ⟨compiled.region (Blueprint.mem_regions_of_mem_exposures hmem),
      views name region (Blueprint.mem_regions_of_mem_exposures hmem)⟩) hlock hmirrors hid hid').1⟩

end LockstepAt

end LiveMarkup
