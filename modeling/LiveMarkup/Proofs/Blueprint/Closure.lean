import LiveMarkup.Proofs.Blueprint.Compiling

namespace LiveMarkup

open CompileContext Site

theorem mem_firstOccurrences {ns : List Nat} {n : Nat} : n ∈ firstOccurrences ns ↔ n ∈ ns := by
  have hfold : ∀ (ns seen : List Nat),
      n ∈ ns.foldl (fun seen n => if seen.contains n then seen else seen ++ [n]) seen ↔
        n ∈ seen ∨ n ∈ ns := by
    intro ns
    induction ns with
    | nil => simp
    | cons m ns ih =>
      intro seen
      rw [List.foldl_cons, ih, List.mem_cons]
      by_cases hm : seen.contains m = true
      · rw [if_pos hm]
        have hmem : m ∈ seen := by simpa using hm
        constructor
        · exact fun h => h.imp_right .inr
        · rintro (h | rfl | h)
          · exact .inl h
          · exact .inl hmem
          · exact .inr h
      · rw [if_neg hm, List.mem_append, List.mem_singleton, or_assoc]
  simpa [firstOccurrences] using hfold ns []

theorem mem_properties_ofText {ctx : CompileContext} {text n : String} :
    n ∈ (Expression.ofText ctx.names text).properties ↔ n ∈ ctx.namesIn text := by
  rw [Expression.ofText, Expression.properties, namesIn, List.filterMap_map, List.mem_filterMap,
    List.mem_filterMap]
  constructor
  · rintro ⟨g, hg, hn⟩
    cases g with
    | literal t => cases hn
    | marker i =>
      refine ⟨i, ?_, ?_⟩
      · rw [markerIndices, mem_firstOccurrences, List.mem_filterMap]
        exact ⟨_, hg, rfl⟩
      · rw [Function.comp_apply, Fragment.ofSegment] at hn
        cases hi : ctx.names[i]? with
        | none => rw [hi] at hn; cases hn
        | some m => rw [hi] at hn; exact hn
  · rintro ⟨i, hi, hn⟩
    rw [markerIndices, mem_firstOccurrences, List.mem_filterMap] at hi
    obtain ⟨g, hg, hgi⟩ := hi
    cases g with
    | literal t => cases hgi
    | marker j =>
      obtain rfl := Option.some.inj hgi
      refine ⟨_, hg, ?_⟩
      rw [Function.comp_apply, Fragment.ofSegment, hn]
      rfl

theorem ofText_ne_wholeText (names : List String) (text : String) :
    Expression.ofText names text ≠ .wholeText := by
  rw [Expression.ofText]
  exact Expression.noConfusion

theorem mem_attributeRecords {ctx : CompileContext} {path : Path}
    {attributes : List (String × String)} {n : String} {r : BindingRecord} :
    (n, r) ∈ ctx.attributeRecords path attributes ↔ ∃ a ∈ attributes, hasMarkers a.2 = true ∧
      n ∈ ctx.namesIn a.2 ∧ r = ⟨path.extend (.attribute a.1), .ofText ctx.names a.2⟩ := by
  rw [attributeRecords, List.mem_flatMap]
  refine exists_congr fun a => and_congr_right fun _ => ?_
  by_cases ha : hasMarkers a.2 = true
  · rw [if_pos ha, List.mem_map]
    constructor
    · rintro ⟨m, hm, he⟩
      obtain ⟨rfl, rfl⟩ := Prod.mk.inj he
      exact ⟨ha, hm, rfl⟩
    · rintro ⟨-, hm, rfl⟩
      exact ⟨n, hm, rfl⟩
  · simp [ha]

def ClosedRecords (rs : List (String × BindingRecord)) : Prop :=
  ∀ n r, (n, r) ∈ rs → ∀ m ∈ r.expression.properties, (m, r) ∈ rs

theorem ClosedRecords.append {rs rs' : List (String × BindingRecord)} (h : ClosedRecords rs)
    (h' : ClosedRecords rs') : ClosedRecords (rs ++ rs') := by
  intro n r hmem m hm
  rcases List.mem_append.mp hmem with hmem | hmem
  · exact List.mem_append_left _ (h n r hmem m hm)
  · exact List.mem_append_right _ (h' n r hmem m hm)

theorem closed_attributeRecords (ctx : CompileContext) (path : Path)
    (attributes : List (String × String)) : ClosedRecords (ctx.attributeRecords path attributes) := by
  intro n r hmem m hm
  obtain ⟨a, ha, hmarkers, -, rfl⟩ := mem_attributeRecords.mp hmem
  exact mem_attributeRecords.mpr ⟨a, ha, hmarkers, mem_properties_ofText.mp hm, rfl⟩

mutual

theorem closed_records (ctx : CompileContext) (path : Path) (before : List Label) :
    ∀ p : Part, ClosedRecords (ctx.records path before p)
  | .fixed _ => fun _ _ hmem => by cases hmem
  | .slot _ => fun n r hmem m hm => by
    rw [CompileContext.records, List.mem_singleton] at hmem
    obtain ⟨-, rfl⟩ := Prod.mk.inj hmem
    cases hm
  | .element l ps => by
    rw [CompileContext.records]
    exact (closed_attributeRecords ctx _ _).append (closed_recordsAll ctx _ [] ps)
  | .region _ _ _ => fun _ _ hmem => by cases hmem

theorem closed_recordsAll (ctx : CompileContext) (path : Path) (before : List Label) :
    ∀ ps : List Part, ClosedRecords (ctx.recordsAll path before ps)
  | [] => fun _ _ hmem => by cases hmem
  | p :: ps => by
    rw [recordsAll]
    exact (closed_records ctx path before p).append (closed_recordsAll ctx path _ ps)

end

theorem closed_viewRecords (ctx : CompileContext) (l : Label) (ps : List Part) :
    ClosedRecords (ctx.viewRecords l ps) :=
  (closed_attributeRecords ctx _ _).append (closed_recordsAll ctx _ [] ps)

/-- The label that a node has before anything is written to it. -/
def Site.Mark.label : Mark → Label
  | .text _ => .text ""
  | .attributes l => l.blanked

def Site.Mark.IsSound : Mark → Prop
  | .text _ => True
  | .attributes l => l.IsSound

mutual

theorem marks_label {d : Document} : ∀ (s : Site) (x : NodeId),
    (∀ c ∈ s.shapes, d.Holds (some x) c) → s.shapes.map d.treeAt = CompileContext.trees s.part →
      s.part.IsSound → ∀ m ∈ s.marks, d.label? m.1 = some m.2.label ∧ m.2.IsSound
  | .fixed _ _, _, _, _, _ => fun _ hm => by cases hm
  | .slot id name, _, hholds, htrees, _ => fun m hm => by
    rw [marks, List.mem_singleton] at hm
    subst hm
    exact ⟨Document.Shows.label? (hholds _ List.mem_cons_self) (List.cons.inj htrees).1, trivial⟩
  | .element id l ss, _, hholds, htrees, hsound => fun m hm => by
    have hheld := hholds _ List.mem_cons_self
    have htree := (List.cons.inj htrees).1
    rw [marks, List.mem_cons] at hm
    rcases hm with rfl | hm
    · exact ⟨Document.Shows.label? hheld htree, hsound.1⟩
    · rw [Document.treeAt_node, Tree.node.injEq] at htree
      exact marksAll_label ss id (fun c hc => hheld.child hc) htree.2 hsound.2 m hm
  | .region _ _ _, _, _, _, _ => fun _ hm => by cases hm

theorem marksAll_label {d : Document} : ∀ (ss : List Site) (x : NodeId),
    (∀ c ∈ shapesAll ss, d.Holds (some x) c) → (shapesAll ss).map d.treeAt = treesAll (Site.parts ss) →
      Part.AllSound (Site.parts ss) → ∀ m ∈ marksAll ss, d.label? m.1 = some m.2.label ∧ m.2.IsSound
  | [], _, _, _, _ => fun _ hm => by cases hm
  | s :: ss, x, hholds, htrees, hsound => fun m hm => by
    have hshows : d.Shows x [] (s :: ss) := ⟨hholds, htrees, by simp⟩
    obtain ⟨hfirst, hrest⟩ := hshows.head
    rw [marksAll, List.mem_append] at hm
    rcases hm with hm | hm
    · exact marks_label s x hfirst.singleton.1 hfirst.singleton.2 hsound.1 m hm
    · exact marksAll_label ss x hrest.holds hrest.trees hsound.2 m hm

end

namespace Document.Exhibits

variable {d : Document} {id : NodeId} {l : Label} {ss : List Site} {ctx : CompileContext}

theorem label_of_mem (h : d.Exhibits id l ss) (hs : SoundView l (Site.parts ss)) :
    ∀ m ∈ allMarks id l ss, d.label? m.1 = some m.2.label ∧ m.2.IsSound := by
  intro m hm
  rw [allMarks, List.mem_cons] at hm
  rcases hm with rfl | hm
  · exact ⟨h.label, hs.label⟩
  · exact marksAll_label ss id (fun c hc => h.holds.child hc) h.trees hs.parts m hm

end Document.Exhibits

theorem mem_attributePlaces {ctx : CompileContext} {x : NodeId} {attributes : List (String × String)}
    {n : String} {p : BoundLocation} :
    (n, p) ∈ attributePlaces ctx x attributes ↔ ∃ a i, attributes[i]? = some a ∧
      hasMarkers a.2 = true ∧ n ∈ ctx.namesIn a.2 ∧ p = ⟨.attribute x i, .ofText ctx.names a.2⟩ := by
  rw [attributePlaces, List.mem_flatMap]
  constructor
  · rintro ⟨⟨a, i⟩, ha, hmem⟩
    rw [List.mem_zipIdx_iff_getElem?] at ha
    by_cases hmarkers : hasMarkers a.2 = true
    · rw [if_pos hmarkers, List.mem_map] at hmem
      obtain ⟨m, hm, he⟩ := hmem
      obtain ⟨rfl, rfl⟩ := Prod.mk.inj he
      exact ⟨a, i, ha, hmarkers, hm, rfl⟩
    · rw [if_neg hmarkers] at hmem
      cases hmem
  · rintro ⟨a, i, ha, hmarkers, hm, rfl⟩
    refine ⟨(a, i), List.mem_zipIdx_iff_getElem?.mpr ha, ?_⟩
    rw [if_pos hmarkers]
    exact List.mem_map_of_mem hm

/-- What is known of a place: a text has a node of its own, an attribute the expression of its
marker-bearing value. -/
theorem mem_places {ctx : CompileContext} {ms : List (NodeId × Mark)} {n : String}
    {p : BoundLocation} :
    (n, p) ∈ places ctx ms ↔
      (∃ x, (x, .text n) ∈ ms ∧ p = ⟨.node x, .wholeText⟩) ∨
      ∃ x l, (x, .attributes l) ∈ ms ∧ ∃ a i, l.attributes.entries[i]? = some a ∧
        hasMarkers a.2 = true ∧ n ∈ ctx.namesIn a.2 ∧
        p = ⟨.attribute x i, .ofText ctx.names a.2⟩ := by
  rw [places, List.mem_flatMap]
  constructor
  · rintro ⟨⟨x, m⟩, hm, hmem⟩
    cases m with
    | text name =>
      rw [markPlaces, List.mem_singleton] at hmem
      obtain ⟨rfl, rfl⟩ := Prod.mk.inj hmem
      exact .inl ⟨x, hm, rfl⟩
    | attributes l => exact .inr ⟨x, l, hm, mem_attributePlaces.mp hmem⟩
  · rintro (⟨x, hm, rfl⟩ | ⟨x, l, hm, hmem⟩)
    · exact ⟨_, hm, List.mem_singleton_self _⟩
    · exact ⟨_, hm, mem_attributePlaces.mpr hmem⟩

theorem eq_of_mem_marks {ms : List (NodeId × Mark)} (h : (ms.map (·.1)).Nodup) {x : NodeId}
    {m m' : Mark} (hm : (x, m) ∈ ms) (hm' : (x, m') ∈ ms) : m = m' :=
  (Prod.mk.inj (List.inj_on_of_nodup_map h hm hm' rfl)).2

theorem nodup_textPlaces (ctx : CompileContext) {ms : List (NodeId × Mark)}
    (h : (ms.map (·.1)).Nodup) :
    (((places ctx ms).filter fun p => p.2.expression = .wholeText).map
      fun p => some p.2.place).Nodup := by
  induction ms with
  | nil => exact List.nodup_nil
  | cons m ms ih =>
    rw [List.map_cons, List.nodup_cons] at h
    rw [places, List.flatMap_cons, ← places, List.filter_append, List.map_append]
    obtain ⟨x, m⟩ := m
    cases m with
    | text name =>
      rw [markPlaces, List.filter_cons_of_pos (by simp), List.filter_nil, List.map_singleton,
        List.singleton_append, List.nodup_cons]
      refine ⟨fun hmem => h.1 ?_, ih h.2⟩
      obtain ⟨⟨n, p⟩, hp, hplace⟩ := List.mem_map.mp hmem
      rcases mem_places.mp (List.mem_of_mem_filter hp) with
        ⟨y, hy, rfl⟩ | ⟨y, l, -, a, i, -, -, -, rfl⟩
      · obtain rfl := Place.node.inj (Option.some.inj hplace)
        exact List.mem_map.mpr ⟨_, hy, rfl⟩
      · cases hplace
    | attributes l =>
      have hnone : ((markPlaces ctx (x, .attributes l)).filter
          fun p => p.2.expression = .wholeText) = [] := by
        rw [List.filter_eq_nil_iff]
        rintro ⟨n, p⟩ hmem
        obtain ⟨a, i, -, -, -, rfl⟩ := mem_attributePlaces.mp hmem
        simpa using ofText_ne_wholeText ctx.names a.2
      rw [hnone, List.map_nil, List.nil_append]
      exact ih h.2

namespace Site

mutual

theorem anchored_mem_marks {x : NodeId} : ∀ s : Site, ∀ a ∈ anchored x s,
    a.anchor = x ∨ ∃ l, (a.anchor, .attributes l) ∈ marks s
  | .fixed _ _ => fun _ ha => by cases ha
  | .slot _ _ => fun _ ha => by cases ha
  | .element id l ss => fun a ha => by
    rw [anchored] at ha
    rw [marks]
    rcases anchoredAll_mem_marks ss a ha with h | ⟨l', h⟩
    · exact .inr ⟨l, by rw [h]; exact List.mem_cons_self⟩
    · exact .inr ⟨l', List.mem_cons_of_mem _ h⟩
  | .region name l ps => fun a ha => by
    rw [anchored, List.mem_singleton] at ha
    exact .inl (by rw [ha])

theorem anchoredAll_mem_marks {x : NodeId} : ∀ ss : List Site, ∀ a ∈ anchoredAll x ss,
    a.anchor = x ∨ ∃ l, (a.anchor, .attributes l) ∈ marksAll ss
  | [] => fun _ ha => by cases ha
  | s :: ss => fun a ha => by
    rw [anchoredAll, List.mem_append] at ha
    rw [marksAll]
    rcases ha with ha | ha
    · exact (anchored_mem_marks s a ha).imp_right fun ⟨l, h⟩ => ⟨l, List.mem_append_left _ h⟩
    · exact (anchoredAll_mem_marks ss a ha).imp_right fun ⟨l, h⟩ => ⟨l, List.mem_append_right _ h⟩

end

end Site

end LiveMarkup
