import LiveMarkup.Proofs.Blueprint.Occurrence

/-!
# What views record

Each view of a template is compiled from a part of the parsed tree: all of it, or the first element
that is marked as a region of that name. The view records just the occurrences of names in its part:
`compile_indexes`.
-/

namespace LiveMarkup

open CompileContext

namespace CompileContext

mutual

/-- The elements of a tree that are marked as regions, but for those inside of such elements. -/
def regionElements (ctx : CompileContext) : Tree → List (String × Tree)
  | .node l ts =>
    match l.content with
    | .element _ =>
      match ctx.mark? l with
      | some name => [(name, .node l ts)]
      | none => ctx.regionElementsAll ts
    | _ => []

def regionElementsAll (ctx : CompileContext) : List Tree → List (String × Tree)
  | [] => []
  | t :: ts => ctx.regionElements t ++ ctx.regionElementsAll ts

end

/-- The tree `t` of a template is what the view `v` inside `b` was compiled from: all of it, or the
first element that is marked as the region. -/
inductive IsPart (ctx : CompileContext) (root : Tree) (b : Blueprint) : Tree → Blueprint → Prop where
  | whole : IsPart ctx root b root b
  | region {t : Tree} {v : Blueprint} {name : String} {r : Region Blueprint} {t' : Tree}
      (outer : IsPart ctx root b t v) (entry : (name, r) ∈ v.regions.entries)
      (first : (ctx.regionElementsAll t.children).lookup name = some t') :
      IsPart ctx root b t' r.view

variable {ctx : CompileContext}

mutual

theorem names_regionElements : ∀ t : Tree, (ctx.regionElements t).map (·.1) = ctx.regionNames t
  | .node l ts => by
    rw [regionElements, regionNames]
    cases l.content with
    | text value => rfl
    | comment value => rfl
    | element name =>
      dsimp only
      cases ctx.mark? l with
      | none => exact names_regionElementsAll ts
      | some n => rfl

theorem names_regionElementsAll :
    ∀ ts : List Tree, (ctx.regionElementsAll ts).map (·.1) = ctx.regionNamesAll ts
  | [] => rfl
  | t :: ts => by
    rw [regionElementsAll, regionNamesAll, List.map_append, names_regionElements t,
      names_regionElementsAll ts]

end

/-- The view of a region is the view of the first element with its mark. -/
def FirstElement (ctx : CompileContext) (found : List (String × Tree)) (g : String × Region Blueprint) :
    Prop :=
  ∃ l ts, found.lookup g.1 = some (.node l ts) ∧
    SoundView (ctx.elementLabel l) (ctx.partsAll [] ts) ∧
    g.2.view = ctx.view (ctx.elementLabel l) (ctx.partsAll [] ts)

mutual

theorem regions_first (path : Path) (before : List Label) (seen : List String) :
    ∀ t : Tree, Part.AllSound (ctx.parts seen t) →
      ∀ g ∈ ctx.regionsAll path before (ctx.parts seen t), ctx.FirstElement (ctx.regionElements t) g
  | .node l ts => by
    rw [parts, regionElements]
    cases hc : l.content with
    | text value =>
      dsimp only
      split
      · rw [regionsAll_segments]
        simp
      · simp [regionsAll, regions]
    | comment value => simp [regionsAll, regions]
    | element name =>
      dsimp only
      cases hm : ctx.mark? l with
      | none =>
        dsimp only
        rw [regionsAll, regions, regionsAll, List.append_nil]
        exact fun hsound => regionsAll_first _ [] seen ts hsound.1.2
      | some n =>
        dsimp only
        split
        · simp [regionsAll]
        · intro hsound g hg
          obtain ⟨hlabel, hdrivers, hparts⟩ := hsound.1
          rw [regionsAll, regions, regionsAll, List.append_nil, List.mem_singleton] at hg
          exact ⟨l, ts, by rw [hg]; simp, ⟨hlabel, hparts, hdrivers⟩, by rw [hg]; rfl⟩

theorem regionsAll_first (path : Path) (before : List Label) (seen : List String) :
    ∀ ts : List Tree, Part.AllSound (ctx.partsAll seen ts) →
      ∀ g ∈ ctx.regionsAll path before (ctx.partsAll seen ts),
        ctx.FirstElement (ctx.regionElementsAll ts) g
  | [] => by simp [partsAll, regionsAll]
  | t :: ts => by
    intro hsound g hg
    rw [partsAll, Part.allSound_iff, List.forall_mem_append, ← Part.allSound_iff,
      ← Part.allSound_iff] at hsound
    rw [partsAll, regionsAll_append, List.mem_append] at hg
    rw [regionElementsAll, FirstElement, List.lookup_append]
    rcases hg with hg | hg
    · obtain ⟨l', ts', hfound, hview⟩ := regions_first path before seen t hsound.1 g hg
      exact ⟨l', ts', by rw [hfound]; rfl, hview⟩
    · obtain ⟨l', ts', hfound, hview⟩ := regionsAll_first path _ _ ts hsound.2 g hg
      -- A name that an earlier tree marks is taken, so the mark in this one is the first.
      have hname := List.mem_map_of_mem (f := (·.1)) hg
      rw [names_regionsAll, mem_driversAll_partsAll, List.mem_append, not_or] at hname
      have hnone : (ctx.regionElements t).lookup g.1 = none := by
        rw [List.lookup_eq_none_iff]
        intro e he
        rw [bne_iff_ne, ne_eq]
        intro h
        rw [h, ← names_regionElements t] at hname
        exact hname.2.2 (List.mem_map_of_mem he)
      exact ⟨l', ts', by rw [hnone]; exact hfound, hview⟩

end

end CompileContext

theorem names_recordTable (rs : List (String × BindingRecord)) :
    (recordTable .empty rs).names = (rs.map (·.1)).eraseDups := by
  induction rs using List.reverseRecOn with
  | nil => rfl
  | append_singleton rs r ih =>
    have hlast : recordTable .empty (rs ++ [r]) = (recordTable .empty rs).put r.1
        (((recordTable .empty rs).get? r.1).getD [] ++ [r.2]) := by
      rw [recordTable, List.foldl_append]
      rfl
    have hremoved : (([r].map (·.1)).removeAll (rs.map (·.1))).eraseDups =
        if r.1 ∈ rs.map (·.1) then [] else [r.1] := by
      by_cases hr : r.1 ∈ rs.map (·.1)
      · rw [if_pos hr]
        simp only [List.removeAll, List.map_singleton]
        rw [List.filter_cons_of_neg (by simpa using hr)]
        rfl
      · rw [if_neg hr]
        simp only [List.removeAll, List.map_singleton]
        rw [List.filter_cons_of_pos (by simpa using hr)]
        rfl
    rw [hlast, Table.names_put, ih, List.map_append, List.eraseDups_append, hremoved]
    simp only [List.mem_eraseDups]
    split
    · rw [List.append_nil]
    · rfl

theorem recordsOf_recordTable {start : Table (List BindingRecord)} (h : ∀ e ∈ start.entries, e.2 = [])
    (hn : start.names.Nodup) {b : Blueprint} {rs : List (String × BindingRecord)}
    (hb : b.properties = recordTable start rs) (n : String) :
    b.recordsOf n = (rs.filter (·.1 == n)).map (·.2) := by
  have hstart : (start.get? n).getD [] = [] := by
    cases hs : start.get? n with
    | none => rfl
    | some v => exact h _ ((Table.get?_eq_some_iff hn).mp hs)
  rw [Blueprint.recordsOf, hb, get?_recordTable, hstart, List.nil_append]

/-- The view is what the parts of the tree amount to. -/
def ViewOf (ctx : CompileContext) (t : Tree) (v : Blueprint) : Prop :=
  ∃ l ts, t = .node l ts ∧ IsView ctx (ctx.elementLabel l) (ctx.partsAll [] ts) v

namespace ViewOf

variable {ctx : CompileContext} {t : Tree} {v : Blueprint}

theorem recordsOf (h : ViewOf ctx t v) (hn : ctx.names.Nodup) (n : String) :
    v.recordsOf n = ((ctx.viewOccurrences t).filter (·.1 == n)).map (·.2) := by
  obtain ⟨l, ts, rfl, hview⟩ := h
  obtain ⟨start, hstart, hempty, hproperties⟩ := hview.properties
  rw [recordsOf_recordTable hempty hstart hproperties, viewRecords_eq hn]

theorem mem_regions (h : ViewOf ctx t v) (n : String) :
    n ∈ v.regions.names ↔ n ∈ ctx.regionNamesAll t.children := by
  obtain ⟨l, ts, rfl, hview⟩ := h
  rw [hview.names_regions, mem_driversAll_partsAll]
  simp [Tree.children]

theorem isElement (h : ViewOf ctx t v) : t.label.content.isElement = true := by
  obtain ⟨l, ts, rfl, hview⟩ := h
  exact hview.sound.label.element

theorem mem_viewOccurrences (h : ViewOf ctx t v) (n : String) :
    n ∈ (ctx.viewOccurrences t).map (·.1) ↔ ∃ l ∈ ctx.viewLabels t, n ∈ ctx.labelNames l := by
  have helement := h.isElement
  obtain ⟨l, ts⟩ := t
  cases hc : l.content with
  | text value => rw [Tree.label, hc] at helement; cases helement
  | comment value => rw [Tree.label, hc] at helement; cases helement
  | element name =>
    have hlabel : n ∈ ctx.labelNames l ↔ n ∈ (ctx.attributeOccurrences .root l).map (·.1) := by
      rw [mem_attributeOccurrences, labelNames, hc]
    rw [viewOccurrences, viewLabels, List.map_append, List.mem_append, ← hlabel, mem_occurrencesAll]
    simp only [List.mem_cons, exists_eq_or_imp]

theorem recordsOf_eq_nil_iff (h : ViewOf ctx t v) (hn : ctx.names.Nodup) (n : String) :
    v.recordsOf n = [] ↔ ∀ l ∈ ctx.viewLabels t, n ∉ ctx.labelNames l := by
  have hnames := h.mem_viewOccurrences n
  rw [h.recordsOf hn, List.map_eq_nil_iff, List.filter_eq_nil_iff]
  constructor
  · intro hnone l hl hmem
    obtain ⟨o, ho, rfl⟩ := List.mem_map.mp (hnames.mpr ⟨l, hl, hmem⟩)
    exact hnone o ho (by simp)
  · intro hnone o ho heq
    rw [beq_iff_eq] at heq
    obtain ⟨l, hl, hmem⟩ := hnames.mp (heq ▸ List.mem_map_of_mem ho)
    exact hnone l hl hmem

/-- A region's view is compiled from the first element with its mark. -/
theorem region (h : ViewOf ctx t v) (hn : ctx.names.Nodup) {name : String} {r : Region Blueprint}
    (hr : (name, r) ∈ v.regions.entries) :
    ∃ t', (ctx.regionElementsAll t.children).lookup name = some t' ∧ ViewOf ctx t' r.view ∧
      r.view.properties.names = ((ctx.viewOccurrences t').map (·.1)).eraseDups := by
  obtain ⟨l, ts, rfl, hview⟩ := h
  rw [hview.regions] at hr
  obtain ⟨l', ts', hfound, hsound, hregion⟩ := regionsAll_first .root [] [] ts hview.sound.parts _ hr
  refine ⟨.node l' ts', hfound, ⟨l', ts', rfl, hregion ▸ isView_view ctx hsound⟩, ?_⟩
  rw [hregion, CompileContext.view, names_recordTable, viewRecords_eq hn]

end ViewOf

def parsedTemplate (config : Config) (text : String) : Tree :=
  skeletonRoot (parse (scan text).1 config.sourceUrl config.preserveWhitespace).roots

theorem viewOf_parsedTemplate {config : Config} {text : String} {targetClass : Option String}
    {b : Blueprint} {log : Log} (h : Blueprint.compile config text targetClass = (.ok b, log)) :
    ViewOf ⟨config, (scan text).2⟩ (parsedTemplate config text) b := by
  obtain ⟨-, l, ts, hroot, helement, hnames, rfl, -⟩ := compile_eq_ok h
  have hsound := soundView_of_everyLabel helement hnames
  exact ⟨l, ts, hroot, isView_viewWith _ _ hsound (scan_nameList text).nodup⟩

namespace CompileContext.IsPart

variable {ctx : CompileContext} {root t : Tree} {b v : Blueprint}

theorem viewOf (hn : ctx.names.Nodup) (hroot : ViewOf ctx root b) (h : ctx.IsPart root b t v) :
    ViewOf ctx t v := by
  induction h with
  | whole => exact hroot
  | region _ entry first ih =>
    obtain ⟨t', hfound, hview, -⟩ := ih.region hn entry
    rw [first] at hfound
    exact Option.some.inj hfound ▸ hview

theorem exists_of_nests (hn : ctx.names.Nodup) (hroot : ViewOf ctx root b) (h : b.Nests v) :
    ∃ t, ctx.IsPart root b t v := by
  induction h with
  | self => exact ⟨root, .whole⟩
  | inside _ entry ih =>
    obtain ⟨t, hpart⟩ := ih
    obtain ⟨t', hfound, -⟩ := (hpart.viewOf hn hroot).region hn entry
    exact ⟨t', hpart.region entry hfound⟩

end CompileContext.IsPart

/-- What a view says of its part `t` of the template: each name is recorded where it occurs, in
document order, a name of no label is not recorded, and the views of the regions have just the names
that are recorded in them, in the order of their first records. -/
structure Blueprint.Indexes (v : Blueprint) (ctx : CompileContext) (t : Tree) : Prop where
  records : ∀ n, v.recordsOf n = ((ctx.viewOccurrences t).filter (·.1 == n)).map (·.2)
  unused : ∀ n, v.recordsOf n = [] ↔ ∀ l ∈ ctx.viewLabels t, n ∉ ctx.labelNames l
  regions : ∀ n, n ∈ v.regions.names ↔ n ∈ ctx.regionNamesAll t.children
  names : ∀ n r, (n, r) ∈ v.regions.entries →
    ∃ t', (ctx.regionElementsAll t.children).lookup n = some t' ∧
      r.view.properties.names = ((ctx.viewOccurrences t').map (·.1)).eraseDups

theorem ViewOf.indexes {ctx : CompileContext} {t : Tree} {v : Blueprint} (h : ViewOf ctx t v)
    (hn : ctx.names.Nodup) : v.Indexes ctx t := by
  refine ⟨h.recordsOf hn, h.recordsOf_eq_nil_iff hn, h.mem_regions, fun n r hr => ?_⟩
  obtain ⟨t', hfound, -, hnames⟩ := h.region hn hr
  exact ⟨t', hfound, hnames⟩

/-- In a template that compiles each view is compiled from a part of the parsed tree, and it records
just the occurrences of names in that part. -/
theorem compile_indexes {config : Config} {text : String} {targetClass : Option String}
    {b : Blueprint} {log : Log} (h : Blueprint.compile config text targetClass = (.ok b, log)) :
    (∀ v, b.Nests v → ∃ t,
      CompileContext.IsPart ⟨config, (scan text).2⟩ (parsedTemplate config text) b t v) ∧
    ∀ t v, CompileContext.IsPart ⟨config, (scan text).2⟩ (parsedTemplate config text) b t v →
      v.Indexes ⟨config, (scan text).2⟩ t := by
  have hn := (scan_nameList text).nodup
  have hroot := viewOf_parsedTemplate h
  refine ⟨fun v hv => CompileContext.IsPart.exists_of_nests hn hroot hv, fun t v hpart => ?_⟩
  exact (hpart.viewOf hn hroot).indexes hn

/-- A list with names in an attribute, in its text and in a comment, and with a region that is there
twice. -/
def tableText : String :=
  "<ul id=\"$\x7ba\x7d$\x7bb\x7d$\x7ba\x7d\">$\x7ba\x7d<!--$\x7bb\x7d-->" ++
    "<li data-repeat=\"r\">$\x7bc\x7d</li><li data-repeat=\"r\">$\x7bb\x7d</li></ul>"

theorem compile_tableText_indexes :
    ∃ b log, Blueprint.compile .standard tableText none = (.ok b, log) ∧
      b.Indexes ⟨.standard, (scan tableText).2⟩ (parsedTemplate .standard tableText) ∧
      ["a", "b", "c"].map (fun n => (b.recordsOf n).map fun r => r.path.display) =
        [["/@id", "/#text[0]"], ["/@id"], []] := by
  have hok : (Blueprint.compile .standard tableText none).1.isOk = true := by decide +kernel
  rcases hcompile : Blueprint.compile .standard tableText none with ⟨_ | b, log⟩
  · rw [hcompile] at hok
    cases hok
  · have hall := (compile_indexes hcompile).2 _ _ .whole
    refine ⟨b, log, rfl, hall, ?_⟩
    simp only [hall.records]
    decide +kernel

def markedText : String := "<ul data-repeat=\"$\x7bitems\x7d\">x</ul>"

/-- The mark of a region is no attribute of the view: what it says is not recorded, nor is what the
mark of a root says. -/
theorem mark_not_recorded :
    ∃ b log, Blueprint.compile .standard markedText none = (.ok b, log) ∧
      (parsedTemplate .standard markedText).label.attributes.entries =
        [("data-repeat", "$\x7b*0*\x7d")] ∧
      CompileContext.markedNames ⟨.standard, ["items"]⟩ "$\x7b*0*\x7d" = ["items"] ∧
      b.recordsOf "items" = [] := by
  have hnone : ((Blueprint.compile .standard markedText none).1.toOption.map
      fun b => b.recordsOf "items") = some [] := by decide +kernel
  obtain ⟨b, hb, hrecords⟩ := Option.map_eq_some_iff.mp hnone
  rcases hcompile : Blueprint.compile .standard markedText none with ⟨_ | b', log⟩
  · rw [hcompile] at hb
    cases hb
  · rw [hcompile] at hb
    obtain rfl : b' = b := Option.some.inj hb
    exact ⟨b', log, rfl, by decide +kernel, by decide +kernel, hrecords⟩

end LiveMarkup
