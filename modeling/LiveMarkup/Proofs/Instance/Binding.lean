import LiveMarkup.Instance.Build
import LiveMarkup.Proofs.Blueprint.View

namespace LiveMarkup

open CompileContext Site

/-- What an exposure of a blueprint becomes below `root`. -/
inductive Exposure.Resolves (d : Document) (root : NodeId) :
    Exposure → String × Accessor Instance → Prop where
  | leaf {name : String} {rs : List BindingRecord} {ls : List BoundLocation}
      (places : rs.map (fun r => (d.decode? root r.path, r.expression)) =
        ls.map fun l => (some l.place, l.expression)) :
      Resolves d root (.leaf name rs) (name, .bound ls)
  | iterating {name : String} {g : Region Blueprint} {a : NodeId}
      (anchor : d.decode? root g.anchor = some (.node a)) :
      Resolves d root (.iterating name g) (name, .iterating a g.view [])

def Exposure.count : Exposure → Nat
  | .leaf _ rs => rs.length
  | .iterating _ _ => 1

def Exposure.countAll : List Exposure → Nat
  | [] => 0
  | e :: es => e.count + countAll es

namespace Instance

variable {d : Document} {root : NodeId}

theorem resolveRecords_eq {name : String} {rs : List BindingRecord} {ls : List BoundLocation}
    (h : rs.map (fun r => (d.decode? root r.path, r.expression)) =
      ls.map fun l => (some l.place, l.expression)) : resolveRecords d root name rs = (ls, []) := by
  induction rs generalizing ls with
  | nil => rw [resolveRecords, List.map_eq_nil_iff.mp h.symm]
  | cons r rs ih =>
    cases ls with
    | nil => cases h
    | cons l ls =>
      obtain ⟨hr, hrest⟩ := List.cons.inj h
      obtain ⟨hplace, hexpr⟩ := Prod.mk.inj hr
      rw [resolveRecords, ih hrest, hplace, hexpr]

theorem defineProperty_of_not_mem (s : Stage) {i : Instance} {name : String} (a : Accessor Instance)
    (h : name ∉ i.accessors.names) :
    i.defineProperty s name a =
      (s, { i with accessors := ⟨i.accessors.entries ++ [(name, a)]⟩ }) := by
  have hnone := Table.get?_eq_none_iff.mpr h
  have hreplace : i.replaceAccessor s name a =
      (s, { i with accessors := ⟨i.accessors.entries ++ [(name, a)]⟩ }) := by
    rw [replaceAccessor, hnone, withAccessor, Table.put_of_not_mem a h]
  unfold defineProperty
  split
  · rename_i locations hlocations
    rw [hnone] at hlocations
    cases hlocations
  · exact hreplace

theorem bindExposures_eq (s : Stage) {i : Instance} {es : List Exposure}
    {as : List (String × Accessor Instance)}
    (h : List.Forall₂ (Exposure.Resolves s.document root) es as)
    (hn : (i.accessors.names ++ as.map (·.1)).Nodup) :
    i.bindExposures s root es = (s, { i with accessors := ⟨i.accessors.entries ++ as⟩ },
      Exposure.countAll es) := by
  induction h generalizing i with
  | nil =>
    rw [bindExposures, List.append_nil, Exposure.countAll]
    cases i
    rfl
  | @cons e a es as ha _ ih =>
    have hnot : a.1 ∉ i.accessors.names := by
      rw [List.nodup_append] at hn
      exact fun hmem => hn.2.2 a.1 hmem a.1 (by simp) rfl
    have hfirst : i.bindExposure s root e =
        (s, { i with accessors := ⟨i.accessors.entries ++ [a]⟩ }, e.count) := by
      cases ha with
      | @leaf name rs ls places =>
        have hlen : ls.length = rs.length := by simpa using (congrArg List.length places).symm
        rw [bindExposure, resolveRecords_eq places]
        dsimp only
        rw [List.append_nil, defineProperty_of_not_mem _ _ hnot, Exposure.count, hlen]
      | iterating anchor =>
        rw [bindExposure, anchor]
        dsimp only
        rw [defineProperty_of_not_mem _ _ hnot, Exposure.count]
    have hnext : ((⟨i.accessors.entries ++ [a]⟩ : Table (Accessor Instance)).names ++
        as.map (·.1)).Nodup := by
      simpa [Table.names] using hn
    rw [bindExposures, hfirst]
    dsimp only
    rw [ih hnext, Exposure.countAll, List.append_assoc]
    rfl

def locationsOf (ps : List (String × BoundLocation)) (name : String) : List BoundLocation :=
  (ps.filter (·.1 == name)).map (·.2)

/-- The accessors for a view at its sites: its properties and then its regions. -/
def accessorsAt (ctx : CompileContext) (b : Blueprint) (id : NodeId) (l : Label) (ss : List Site) :
    List (String × Accessor Instance) :=
  (b.properties.entries.filter fun p => !p.2.isEmpty && !b.regions.contains p.1).map
      (fun p => (p.1, .bound (locationsOf (places ctx (Document.Exhibits.allMarks id l ss)) p.1))) ++
    (anchoredAll id ss).map fun a => (a.name, .iterating a.anchor (ctx.view a.label a.parts) [])

variable {ctx : CompileContext} {l : Label} {ss : List Site} {b : Blueprint}

theorem nodup_names_accessorsAt (hv : IsView ctx l (Site.parts ss) b) (root : NodeId) :
    ((accessorsAt ctx b root l ss).map (·.1)).Nodup := by
  obtain ⟨start, hstart, -, hproperties⟩ := hv.properties
  have hleaves : (b.properties.entries.map (·.1)).Nodup := by
    rw [hproperties]
    exact nodup_names_recordTable hstart _
  rw [accessorsAt, List.map_append, List.map_map, List.map_map, List.nodup_append]
  refine ⟨(List.filter_sublist.map _).nodup hleaves, ?_, ?_⟩
  · have hdrivers := hv.sound.drivers
    rw [← names_anchoredAll root] at hdrivers
    exact hdrivers
  · intro x hx y hy e
    obtain ⟨p, hp, rfl⟩ := List.mem_map.mp hx
    obtain ⟨a, ha, rfl⟩ := List.mem_map.mp hy
    have hnot := (List.mem_filter.mp hp).2
    have hmem : a.name ∈ b.regions.names := by
      rw [hv.names_regions, ← names_anchoredAll root]
      exact List.mem_map_of_mem ha
    rw [Bool.and_eq_true, Bool.not_eq_true', Bool.not_eq_true', ← Bool.not_eq_true,
      ← Bool.not_eq_true, Table.contains_iff] at hnot
    have hname : p.1 = a.name := e
    exact hnot.2 (hname ▸ hmem)

theorem exposures_resolve (hv : IsView ctx l (Site.parts ss) b) (h : d.Exhibits root l ss) :
    List.Forall₂ (Exposure.Resolves d root) b.exposures (accessorsAt ctx b root l ss) := by
  obtain ⟨start, hstart, hempty, hproperties⟩ := hv.properties
  rw [Blueprint.exposures, accessorsAt]
  refine List.rel_append ?_ ?_
  · rw [List.forall₂_map_left_iff, List.forall₂_map_right_iff, List.forall₂_same]
    rintro ⟨n, rs⟩ hmem
    refine .leaf ?_
    have hrs := mem_recordTable hstart hempty (hproperties ▸ List.mem_of_mem_filter hmem)
    have hlocated := congrArg (List.filter (·.1 == n)) (h.located_viewRecords ctx hv.sound)
    rw [List.filter_map, List.filter_map] at hlocated
    have hpairs := congrArg (List.map (·.2)) hlocated
    rw [List.map_map, List.map_map] at hpairs
    rw [hrs, locationsOf, List.map_map, List.map_map]
    simpa [Document.located, Document.found, Function.comp_def, h.decode?_eq] using hpairs
  · rw [hv.regions]
    have hregions := h.located_viewRegions ctx
    rw [← List.forall₂_eq_eq_eq, List.forall₂_map_left_iff, List.forall₂_map_right_iff] at hregions
    rw [List.forall₂_map_left_iff, List.forall₂_map_right_iff]
    refine hregions.imp fun g a hga => ?_
    rw [Document.locatedRegion, Document.foundRegion] at hga
    obtain ⟨hname, hrest⟩ := Prod.mk.inj hga
    obtain ⟨hanchor, hview⟩ := Prod.mk.inj hrest
    rw [← hname, ← hview]
    exact .iterating (by rw [h.decode?_eq, hanchor])

/-- Binding a fresh copy gives the accessors of the view and says nothing but how many locations
there are. -/
theorem bind_eq (hv : IsView ctx l (Site.parts ss) b) (s : Stage)
    (h : s.document.Exhibits root l ss) {i : Instance} (hi : i.accessors = .empty) :
    i.bind s b root = (s.say (.debug "installed shadow view bindings"
      [("class", i.className), ("resolved", toString (Exposure.countAll b.exposures))]),
      { i with accessors := ⟨accessorsAt ctx b root l ss⟩ },
      Exposure.countAll b.exposures) := by
  have hnodup : (i.accessors.names ++ (accessorsAt ctx b root l ss).map (·.1)).Nodup := by
    rw [hi]
    exact nodup_names_accessorsAt hv root
  rw [bind, bindExposures_eq s (exposures_resolve hv h) hnodup, hi]
  rfl

end Instance

end LiveMarkup
