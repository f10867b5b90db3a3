import LiveMarkup.Proofs.Blueprint.Provenance
import LiveMarkup.Proofs.Instance.Coherence
import LiveMarkup.Proofs.Placeholder.Naming

namespace LiveMarkup

open CompileContext Document Site

namespace Instance

variable {ctx : CompileContext} {l : Label} {ss : List Site} {b : Blueprint} {id : NodeId}
  {d : Document} {n m : String} {ls : List BoundLocation} {r : BoundLocation}

theorem mem_names_accessorsAt (hv : IsView ctx l (Site.parts ss) b) {rs : List BindingRecord}
    {record : BindingRecord} (hentry : (n, rs) ∈ b.properties.entries) (hrecord : record ∈ rs) :
    n ∈ (accessorsAt ctx b id l ss).map (·.1) := by
  rw [accessorsAt, List.map_append, List.mem_append]
  by_cases hregion : b.regions.contains n = true
  · right
    rw [Table.contains_iff, hv.names_regions, ← names_anchoredAll id] at hregion
    rw [List.map_map]
    exact hregion
  · left
    have hne : rs.isEmpty = false := List.isEmpty_eq_false_iff.mpr (List.ne_nil_of_mem hrecord)
    rw [List.map_map]
    refine List.mem_map.mpr ⟨(n, rs), List.mem_filter.mpr ⟨hentry, ?_⟩, rfl⟩
    rw [hne, Bool.eq_false_iff.mpr hregion]
    rfl

theorem closed_accessorsAt (hv : IsView ctx l (Site.parts ss) b) (h : d.Exhibits id l ss)
    (hn : (n, .bound ls) ∈ accessorsAt ctx b id l ss) (hr : r ∈ ls)
    (hm : m ∈ r.expression.reads n) : m ∈ (accessorsAt ctx b id l ss).map (·.1) := by
  have hself := List.mem_map_of_mem (f := (·.1)) hn
  obtain rfl := bound_mem_accessorsAt hn
  rw [mem_locationsOf] at hr
  rcases mem_places.mp hr with ⟨x, hx, rfl⟩ | ⟨x, l', hx, a, i, ha, hmarkers, -, rfl⟩
  · obtain rfl : m = n := by simpa [Expression.reads] using hm
    exact hself
  · have hnames : m ∈ ctx.namesIn a.2 := mem_properties_ofText.mp hm
    have hplace := List.mem_map_of_mem (f := found)
      (mem_places.mpr (.inr ⟨x, l', hx, a, i, ha, hmarkers, hnames, rfl⟩))
    rw [← h.located_viewRecords ctx hv.sound] at hplace
    obtain ⟨⟨m', record⟩, hrecord, he⟩ := List.mem_map.mp hplace
    obtain rfl : m' = m := (Prod.mk.inj he).1
    obtain ⟨rs, hentry, hmem⟩ := hv.exists_entry hrecord
    exact mem_names_accessorsAt hv hentry hmem

theorem isName_accessorsAt {config : Config} {text : String} {targetClass : Option String} {log : Log}
    (h : Blueprint.compile config text targetClass = (.ok b, log))
    (hn : (n, .bound ls) ∈ accessorsAt ctx b id l ss) : Placeholder.isName n.toList = true := by
  rw [accessorsAt, List.mem_append] at hn
  rcases hn with hn | hn
  · obtain ⟨⟨n', rs⟩, hp, he⟩ := List.mem_map.mp hn
    obtain rfl : n' = n := (Prod.mk.inj he).1
    obtain ⟨hentry, hkept⟩ := List.mem_filter.mp hp
    rw [Bool.and_eq_true, Bool.not_eq_true', List.isEmpty_eq_false_iff] at hkept
    obtain ⟨record, rest, rfl⟩ := List.exists_cons_of_ne_nil hkept.1
    have hrecorded : n' ∈ b.recordedNames := by
      rw [Blueprint.recordedNames_eq, List.mem_append]
      refine .inl (List.mem_map.mpr ⟨(n', record), List.mem_flatMap.mpr ⟨_, hentry, ?_⟩, rfl⟩)
      exact List.mem_map_of_mem List.mem_cons_self
    have hlist := scan_nameList text
    have hmarkers := ((viewOf_parsedTemplate h).recordedNames_subperm hlist.nodup).subset hrecorded
    obtain ⟨digits, -, hname⟩ := List.mem_filterMap.mp hmarkers
    exact hlist.isName (CompileContext.mem_names_of_markerName? hname)
  · obtain ⟨a, -, he⟩ := List.mem_map.mp hn
    cases (Prod.mk.inj he).2

end Instance

end LiveMarkup
