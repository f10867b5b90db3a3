import LiveMarkup.Proofs.Blueprint.Lossless
import LiveMarkup.Proofs.Instance.Binding

namespace LiveMarkup

open CompileContext Site

namespace Blueprint

/-- All that the blueprint records is found below `root`, each text at a node of its own. -/
structure ResolvesIn (b : Blueprint) (c : Document) (root : NodeId) : Prop where
  texts : ∀ n rs r, (n, rs) ∈ b.properties.entries → r ∈ rs → r.expression = .wholeText →
    ∃ x, c.decode? root r.path = some (.node x) ∧ c.label? x = some (.text "")
  «attributes» : ∀ n rs r, (n, rs) ∈ b.properties.entries → r ∈ rs → r.expression ≠ .wholeText →
    ∃ x i name, c.decode? root r.path = some (.attribute x i) ∧
      (c.attributes x).entries[i]? = some (name, "")
  distinct : (((b.properties.entries.flatMap (·.2)).filter fun r => r.expression = .wholeText).map
    fun r => c.decode? root r.path).Nodup
  anchors : ∀ n g, (n, g) ∈ b.regions.entries → ∃ x l, c.decode? root g.anchor = some (.node x) ∧
    c.label? x = some l ∧ l.content.isElement = true
  binding : ∀ (s : Stage) (i : Instance), s.document = c → i.accessors = .empty →
    ∃ s' i', i.bind s b root = (s', i', Exposure.countAll b.exposures) ∧
      s'.log = s.log ++ [.debug "installed shadow view bindings" [("class", i.className),
        ("resolved", toString (Exposure.countAll b.exposures))]]

/-- The names of the blueprint differ, each location is recorded for all names that are read there,
and everything is found in every copy of the skeleton. -/
structure Resolvable (b : Blueprint) : Prop where
  names : b.properties.names.Nodup
  closed : ∀ n rs r, (n, rs) ∈ b.properties.entries → r ∈ rs → ∀ m ∈ r.expression.properties,
    ∃ rs', (m, rs') ∈ b.properties.entries ∧ r ∈ rs'
  copies : ∀ d : Document, d.Tidy → b.ResolvesIn (d.graft b.skeleton).1 (d.graft b.skeleton).2

end Blueprint

namespace IsView

variable {ctx : CompileContext} {l : Label} {ps : List Part} {b : Blueprint}

theorem mem_entries (h : IsView ctx l ps b) {n : String} {rs : List BindingRecord} {r : BindingRecord}
    (hrs : (n, rs) ∈ b.properties.entries) : r ∈ rs ↔ (n, r) ∈ ctx.viewRecords l ps := by
  obtain ⟨start, hstart, hempty, hproperties⟩ := h.properties
  have hlist := mem_recordTable hstart hempty (hproperties ▸ hrs)
  rw [hlist, List.mem_map]
  constructor
  · rintro ⟨⟨m, r'⟩, hr', rfl⟩
    rw [List.mem_filter, beq_iff_eq] at hr'
    obtain ⟨hr', rfl⟩ := hr'
    exact hr'
  · exact fun hr => ⟨(n, r), List.mem_filter.mpr ⟨hr, by simp⟩, rfl⟩

theorem exists_entry (h : IsView ctx l ps b) {n : String} {r : BindingRecord}
    (hr : (n, r) ∈ ctx.viewRecords l ps) : ∃ rs, (n, rs) ∈ b.properties.entries ∧ r ∈ rs := by
  obtain ⟨start, -, -, hproperties⟩ := h.properties
  have hn : n ∈ b.properties.names := by
    rw [hproperties, mem_names_recordTable]
    exact .inr (List.mem_map.mpr ⟨_, hr, rfl⟩)
  obtain ⟨⟨m, rs⟩, hrs, rfl⟩ := List.mem_map.mp hn
  exact ⟨rs, hrs, (h.mem_entries hrs).mpr hr⟩

section Exhibits

variable {ss : List Site} {c : Document} {root : NodeId}

theorem exists_place (h : IsView ctx l (Site.parts ss) b) (he : c.Exhibits root l ss) {n : String}
    {rs : List BindingRecord} {r : BindingRecord} (hrs : (n, rs) ∈ b.properties.entries) (hr : r ∈ rs) :
    ∃ p, (n, p) ∈ places ctx (Document.Exhibits.allMarks root l ss) ∧
      c.decode? root r.path = some p.place ∧ r.expression = p.expression := by
  have hmem := List.mem_map_of_mem (f := c.located root) ((h.mem_entries hrs).mp hr)
  rw [he.located_viewRecords ctx h.sound] at hmem
  obtain ⟨⟨m, p⟩, hp, heq⟩ := List.mem_map.mp hmem
  rw [Document.found, Document.located] at heq
  obtain ⟨rfl, heq⟩ := Prod.mk.inj heq
  obtain ⟨hplace, hexpr⟩ := Prod.mk.inj heq
  exact ⟨p, hp, by rw [he.decode?_eq, ← hplace], hexpr.symm⟩

theorem nodup_texts (h : IsView ctx l (Site.parts ss) b) (he : c.Exhibits root l ss) :
    (((b.properties.entries.flatMap (·.2)).filter fun r => r.expression = .wholeText).map
      fun r => c.decode? root r.path).Nodup := by
  obtain ⟨start, -, hempty, hproperties⟩ := h.properties
  have hstart : start.entries.flatMap (·.2) = [] := by
    rw [List.flatMap_eq_nil_iff]
    exact hempty
  have hperm := flatMap_recordTable start (ctx.viewRecords l (Site.parts ss))
  rw [hstart, List.nil_append, ← hproperties] at hperm
  refine ((hperm.filter _).map _).nodup_iff.mpr ?_
  have hfilter := congrArg (List.filter fun p => p.2.2 = Expression.wholeText)
    (he.located_viewRecords ctx h.sound)
  rw [List.filter_map, List.filter_map] at hfilter
  have hplaces := congrArg (List.map (·.2.1)) hfilter
  rw [List.map_map, List.map_map] at hplaces
  have hnodup := nodup_textPlaces ctx he.nodup_allMarks
  simp only [Document.located, Document.found, Function.comp_def] at hplaces
  rw [List.filter_map, List.map_map]
  simp only [Function.comp_def, he.decode?_eq]
  exact hplaces ▸ hnodup

theorem exists_anchor (h : IsView ctx l (Site.parts ss) b) (he : c.Exhibits root l ss) {n : String}
    {g : Region Blueprint} (hg : (n, g) ∈ b.regions.entries) :
    ∃ x l, c.decode? root g.anchor = some (.node x) ∧ c.label? x = some l ∧
      l.content.isElement = true := by
  rw [h.regions] at hg
  have hmem := List.mem_map_of_mem (f := c.locatedRegion root) hg
  rw [he.located_viewRegions ctx] at hmem
  obtain ⟨a, ha, heq⟩ := List.mem_map.mp hmem
  rw [Document.foundRegion, Document.locatedRegion] at heq
  obtain ⟨-, heq⟩ := Prod.mk.inj heq
  have hanchor := (Prod.mk.inj heq).1
  have hmark : ∃ l', (a.anchor, .attributes l') ∈ Document.Exhibits.allMarks root l ss := by
    rcases anchoredAll_mem_marks ss a ha with e | ⟨l', hl'⟩
    · exact ⟨l, by rw [e]; exact List.mem_cons_self⟩
    · exact ⟨l', List.mem_cons_of_mem _ hl'⟩
  obtain ⟨l', hl'⟩ := hmark
  obtain ⟨hread, hsound⟩ := he.label_of_mem h.sound _ hl'
  exact ⟨a.anchor, _, by rw [he.decode?_eq, ← hanchor], hread, hsound.element⟩

theorem resolvesIn (h : IsView ctx l (Site.parts ss) b) (he : c.Exhibits root l ss) :
    b.ResolvesIn c root := by
  refine ⟨?_, ?_, h.nodup_texts he, fun n g hg => h.exists_anchor he hg, ?_⟩
  · intro n rs r hrs hr hwhole
    obtain ⟨p, hp, hplace, hexpr⟩ := h.exists_place he hrs hr
    rcases mem_places.mp hp with ⟨x, hx, rfl⟩ | ⟨x, l', -, a, i, -, -, -, rfl⟩
    · exact ⟨x, hplace, (he.label_of_mem h.sound _ hx).1⟩
    · exact absurd (hexpr.symm.trans hwhole) (ofText_ne_wholeText _ _)
  · intro n rs r hrs hr hconcat
    obtain ⟨p, hp, hplace, hexpr⟩ := h.exists_place he hrs hr
    rcases mem_places.mp hp with ⟨x, hx, rfl⟩ | ⟨x, l', hx, a, i, ha, hmarkers, -, rfl⟩
    · exact absurd hexpr hconcat
    · refine ⟨x, i, a.1, hplace, ?_⟩
      rw [Document.attributes, (he.label_of_mem h.sound _ hx).1]
      simp [Mark.label, Label.blanked, ha, hmarkers]
  · rintro s i rfl hi
    exact ⟨_, _, Instance.bind_eq h s he hi, rfl⟩

end Exhibits

theorem resolvable (h : IsView ctx l ps b) : b.Resolvable := by
  obtain ⟨start, hstart, -, hproperties⟩ := h.properties
  refine ⟨?_, ?_, ?_⟩
  · rw [hproperties]
    exact nodup_names_recordTable hstart _
  · intro n rs r hrs hr m hm
    exact h.exists_entry (closed_viewRecords ctx l ps n r ((h.mem_entries hrs).mp hr) m hm)
  · intro d hd
    obtain ⟨s, hcopies, hid⟩ := hd.graft b.skeleton
    obtain ⟨ss, -, rfl, he⟩ := h.exists_exhibits hcopies
    rw [← hid]
    exact h.resolvesIn he

end IsView

/-- Every view that a template compiles to is closed and fully resolvable. It is compiled from its part
of the template without loss, in the document that the source is parsed into as in any other one, so no
location has left the skeleton when paths are taken. -/
theorem compile_resolvable {config : Config} {text : String} {targetClass : Option String}
    {b : Blueprint} {log : Log} (h : Blueprint.compile config text targetClass = (.ok b, log)) :
    (∀ v, b.Nests v → v.Resolvable ∧ ∃ t,
      CompileContext.IsPart ⟨config, (scan text).2⟩ (parsedTemplate config text) b t v ∧
      CompileContext.Lossless ⟨config, (scan text).2⟩ t v) ∧
    (∃ s, (parse (scan text).1 config.sourceUrl config.preserveWhitespace).skeleton.2 = s.id ∧
      (parse (scan text).1 config.sourceUrl config.preserveWhitespace).skeleton.1.HoldsTree s
        (parsedTemplate config text)) ∧
    ∀ e ∈ log, e.message ≠ "bound location left the skeleton during compilation" := by
  obtain ⟨l, ps, hview⟩ := exists_isView h
  have hn := (scan_nameList text).nodup
  refine ⟨fun v hv => ⟨?_, ?_⟩, exists_skeleton_parse _ _ _, fun e he => ?_⟩
  · obtain ⟨l', ps', hview'⟩ := hview.nested hv
    exact hview'.resolvable
  · obtain ⟨t, hpart⟩ := CompileContext.IsPart.exists_of_nests hn (viewOf_parsedTemplate h) hv
    exact ⟨t, hpart, (hpart.compiled (compiled_parsedTemplate h)).lossless hn⟩
  · obtain ⟨-, _, _, -, -, -, -, hlog⟩ := compile_eq_ok h
    rcases hlog e he with hmessage | hmessage
    · intro hlost
      rw [hlost] at hmessage
      revert hmessage
      decide
    · rw [hmessage]
      decide

def listText : String :=
  "<ul class=\"$\x7bkind\x7d\">$\x7btitle\x7d<li data-repeat=\"rows\">$\x7bname\x7d</li></ul>"

theorem compile_listText_resolvable :
    ∃ b log, Blueprint.compile .standard listText none = (.ok b, log) ∧
      b.regions.names = ["rows"] ∧
      (∀ v, b.Nests v → v.Resolvable ∧ ∃ t,
        CompileContext.IsPart ⟨.standard, (scan listText).2⟩ (parsedTemplate .standard listText) b t v ∧
        CompileContext.Lossless ⟨.standard, (scan listText).2⟩ t v) ∧
      ∀ e ∈ log, e.message ≠ "bound location left the skeleton during compilation" := by
  have hregions : ((Blueprint.compile .standard listText none).1.toOption.map
      fun b => b.regions.names) = some ["rows"] := by decide +kernel
  obtain ⟨b, hb, hnames⟩ := Option.map_eq_some_iff.mp hregions
  rcases hcompile : Blueprint.compile .standard listText none with ⟨_ | b', log⟩
  · rw [hcompile] at hb
    cases hb
  · rw [hcompile] at hb
    obtain rfl : b' = b := Option.some.inj hb
    obtain ⟨hviews, -, hlog⟩ := compile_resolvable hcompile
    exact ⟨b', log, rfl, hnames, hviews, hlog⟩

end LiveMarkup
