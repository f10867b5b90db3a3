import LiveMarkup.Proofs.Blueprint.Indexing
import LiveMarkup.Proofs.Markup.Conservation
import LiveMarkup.Proofs.Markup.Respelling

/-!
# Where records stem from

Each record of a view is for a marker of its own in the parsed tree. The markers of the tree are
those that were written for placeholders, unless one arises where references are decoded or where
texts join.
-/

namespace LiveMarkup

/-! ### Markers in parsed trees -/

def markCount (p : List Char → Bool) (cs : List Char) : Nat :=
  (Marker.pattern.occurrences cs).countP p

def Tree.markers (t : Tree) : List (List Char) :=
  t.data.flatMap fun s => Marker.pattern.occurrences s.toList

/-- No marker arises where the references in a part of the text are decoded, or where a text joins
the text before it. -/
structure Unassembled (text url : String) (preserve : Bool) : Prop where
  decoded : ∀ run, run <:+: unifyLineEnds text.toList →
    Marker.pattern.occurrences (Reference.decode run) = Marker.pattern.occurrences run
  joined : Builder.EveryJoin (fun before value =>
      Marker.pattern.occurrences (before ++ value).toList =
        Marker.pattern.occurrences before.toList ++ Marker.pattern.occurrences value.toList)
    preserve .start (Item.ofTokens (lex text url).tokens)

theorem superadditive_markCount (p : List Char → Bool) : Superadditive (markCount p) := by
  intro a b
  have hsub := (Marker.occurrences_append_sublist a b).countP_le (p := p)
  rwa [List.countP_append] at hsub

theorem countP_flatMap_occurrences (p : List Char → Bool) (data : List String) :
    (data.flatMap fun s => Marker.pattern.occurrences s.toList).countP p =
      weight (markCount p) data := by
  rw [List.countP_flatMap]
  rfl

theorem Builder.EveryJoin.imp {P Q : String → String → Prop} {preserve : Bool} {b : Builder}
    {items : List Item} (h : EveryJoin P preserve b items) (himp : ∀ s t, P s t → Q s t) :
    EveryJoin Q preserve b items := by
  induction items generalizing b with
  | nil => trivial
  | cons i items ih =>
    cases i with
    | text value => exact ⟨himp _ _ h.1, ih h.2⟩
    | opening | closing | comment => exact ih (b := b.push preserve _) h

theorem Unassembled.weight_roots_le {text url : String} {preserve : Bool}
    (h : Unassembled text url preserve) (p : List Char → Bool) :
    weight (markCount p) ((parse text url preserve).roots.flatMap Tree.data) ≤
      markCount p text.toList := by
  have hdecode : DecodesWithin (markCount p) (unifyLineEnds text.toList) := by
    intro run hrun
    rw [markCount, h.decoded run hrun, markCount]
  have hjoin : Builder.JoinsWithin (markCount p) preserve .start
      (Item.ofTokens (lex text url).tokens) := by
    refine h.joined.imp fun before value heq => ?_
    rw [markCount, heq, List.countP_append]
    exact Nat.le_refl _
  have hparse := weight_parse_le (superadditive_markCount p) hdecode hjoin
  rwa [markCount, occurrences_unifyLineEnds, ← markCount] at hparse

theorem weight_data_skeletonRoot {μ : List Char → Nat} (roots : List Tree) :
    weight μ (skeletonRoot roots).data = weight μ (roots.flatMap Tree.data) := by
  have hwrapped : ∀ ts, (Tree.node (.element "div") ts).data = ts.flatMap Tree.data := by
    intro ts
    rw [Tree.data_node]
    rfl
  unfold skeletonRoot
  split
  · split
    · rw [List.flatMap_singleton]
    · rw [hwrapped]
  · rw [hwrapped]

/-! ### Names of markers -/

theorem eraseDups_sublist (names : List String) : names.eraseDups.Sublist names := by
  induction hn : names.length using Nat.strong_induction_on generalizing names with
  | _ k ih =>
    subst hn
    cases names with
    | nil => exact List.Sublist.refl _
    | cons n names =>
      have hrest := List.filter_sublist (p := fun m => !m == n) (l := names)
      rw [List.eraseDups_cons]
      exact ((ih _ (Nat.lt_succ_of_le hrest.length_le) _ rfl).trans hrest).cons_cons n

namespace CompileContext

variable {ctx : CompileContext}

def markerName? (ctx : CompileContext) (digits : List Char) : Option String :=
  ctx.nameOf? (Segment.ofDigits digits)

theorem mem_names_of_markerName? {digits : List Char} {n : String}
    (h : ctx.markerName? digits = some n) : n ∈ ctx.names := by
  unfold markerName? nameOf? at h
  split at h
  · cases h
  · exact List.mem_of_getElem? h

theorem markedNames_eq (text : String) :
    ctx.markedNames text = (Marker.pattern.occurrences text.toList).filterMap ctx.markerName? := by
  have hrun : ∀ run, (Segment.ofRun run).filterMap ctx.nameOf? = [] := by
    intro run
    unfold Segment.ofRun
    split
    · rfl
    · rfl
  have hpieces : ∀ cs run, (Segment.ofPieces run (Marker.pattern.split cs)).filterMap ctx.nameOf? =
      (Marker.pattern.occurrences cs).filterMap ctx.markerName? := by
    intro cs
    induction cs using Pattern.split.induct Marker.pattern with
    | case1 cs digits rest hread ih =>
      intro run
      rw [Pattern.split_of_read? hread, Pattern.occurrences_of_read? hread, Segment.ofPieces,
        List.filterMap_append, hrun, List.nil_append, List.filterMap_cons, List.filterMap_cons, ih]
      rfl
    | case2 hread =>
      intro run
      rw [Pattern.split_nil, Pattern.occurrences_nil]
      exact hrun run
    | case3 c rest hread ih =>
      intro run
      rw [Pattern.split_cons_of_none hread, Pattern.occurrences_cons_of_none hread]
      exact ih (c :: run)
  exact hpieces text.toList []

/-- Whether a marker with those digits stands for the name. -/
def isMarkerOf (ctx : CompileContext) (n : String) (digits : List Char) : Bool :=
  ctx.markerName? digits == some n

theorem count_filterMap_markerName? (n : String) (ms : List (List Char)) :
    (ms.filterMap ctx.markerName?).count n = ms.countP (ctx.isMarkerOf n) := by
  induction ms with
  | nil => rfl
  | cons m ms ih =>
    rw [List.countP_cons, isMarkerOf]
    cases hm : ctx.markerName? m with
    | none =>
      rw [List.filterMap_cons_none hm, ih]
      simp
    | some n' =>
      rw [List.filterMap_cons_some hm, List.count_cons, ih]
      simp

theorem count_markedNames (n text : String) :
    (ctx.markedNames text).count n = markCount (ctx.isMarkerOf n) text.toList := by
  rw [markedNames_eq, count_filterMap_markerName?, markCount]

/-- What a scan writes for a placeholder stands for its name, or for none if there are too many. -/
theorem markerName?_toDigits (config : Config) {names : List String} {n m : String}
    (h : markerName? ⟨config, names⟩ (Nat.toDigits 10 (names.idxOf n)) = some m) : m = n := by
  rw [markerName?, Segment.ofDigits, naturalOfDigits?_toDigits] at h
  split at h
  · rename_i heq
    split at heq
    · obtain rfl := Option.some.inj heq
      obtain ⟨hlt, hat⟩ := List.getElem?_eq_some_iff.mp h
      rw [← hat]
      exact List.getElem_idxOf hlt
    · cases heq
  · cases h

end CompileContext

/-! ### Records of nested views -/

namespace Blueprint

mutual

/-- The names of the records in a view and in the views inside it, each as often as there are. -/
def recordedNames : Blueprint → List String
  | ⟨_, properties, regions, _⟩ => (namedRecords properties).map (·.1) ++ recordedInTable regions

def recordedInTable : Table (Region Blueprint) → List String
  | ⟨entries⟩ => recordedInEntries entries

def recordedInEntries : List (String × Region Blueprint) → List String
  | [] => []
  | e :: rest => recordedInEntry e ++ recordedInEntries rest

def recordedInEntry : String × Region Blueprint → List String
  | (_, r) => recordedInRegion r

def recordedInRegion : Region Blueprint → List String
  | ⟨_, view⟩ => recordedNames view

end

theorem recordedNames_eq (v : Blueprint) : v.recordedNames =
    (namedRecords v.properties).map (·.1) ++ recordedInEntries v.regions.entries := by
  obtain ⟨skeleton, properties, ⟨entries⟩, targetClass⟩ := v
  rfl

theorem recordedInEntries_singleton (name : String) (r : Region Blueprint) :
    recordedInEntries [(name, r)] = r.view.recordedNames := by
  obtain ⟨anchor, view⟩ := r
  exact List.append_nil _

theorem recordedInEntries_append (entries entries' : List (String × Region Blueprint)) :
    recordedInEntries (entries ++ entries') =
      recordedInEntries entries ++ recordedInEntries entries' := by
  induction entries with
  | nil => rfl
  | cons e entries ih =>
    rw [List.cons_append, recordedInEntries, recordedInEntries, ih, List.append_assoc]

end Blueprint

namespace CompileContext

variable {ctx : CompileContext}

theorem recordedNames_perm {l : Label} {ps : List Part} {v : Blueprint} (h : IsView ctx l ps v) :
    v.recordedNames.Perm ((ctx.viewRecords l ps).map (·.1) ++
      Blueprint.recordedInEntries (ctx.regionsAll .root [] ps)) := by
  obtain ⟨start, -, hempty, hproperties⟩ := h.properties
  have hstart : namedRecords start = [] := by
    rw [namedRecords, List.flatMap_eq_nil_iff]
    intro e he
    rw [hempty e he]
    rfl
  have hrecords := namedRecords_recordTable start (ctx.viewRecords l ps)
  rw [hstart, List.nil_append, ← hproperties] at hrecords
  rw [Blueprint.recordedNames_eq, h.regions]
  exact (hrecords.map _).append_right _

/-- A name that stands in an attribute several times is recorded there once. -/
theorem count_attributeOccurrences_le (n : String) (path : Path) (l : Label) :
    ((ctx.attributeOccurrences path l).map (·.1)).count n ≤
      weight (markCount (ctx.isMarkerOf n)) l.data := by
  have hentries : ∀ entries : List (String × String),
      ((entries.flatMap fun a => (ctx.markedNames a.2).eraseDups.map fun n =>
        (n, (⟨path.extend (.attribute (restore ctx.names a.1)), .ofText ctx.names a.2⟩ :
          BindingRecord))).map (·.1)).count n ≤
        weight (markCount (ctx.isMarkerOf n)) (entries.map (·.2)) := by
    intro entries
    induction entries with
    | nil => exact Nat.le_refl _
    | cons a entries ih =>
      have hfirst := (eraseDups_sublist (ctx.markedNames a.2)).count_le n
      rw [count_markedNames] at hfirst
      rw [List.flatMap_cons, List.map_append, List.count_append, List.map_cons, weight_cons,
        List.map_map, Function.comp_def, List.map_id']
      omega
  have hkept : ((l.attributes.erase ctx.config.iterationAttribute).entries.map (·.2)).Sublist
      l.data := (List.eraseP_sublist.map _).trans l.values_sublist
  exact Nat.le_trans (hentries _) (weight_le_of_sublist hkept)

theorem count_textOccurrences_le (n : String) (path : Path) (steps : List (NodeKind × String))
    {l : Label} {value : String} (hl : l.content = .text value) (ts : List Tree) :
    ((ctx.textOccurrences path steps value).map (·.1)).count n ≤
      weight (markCount (ctx.isMarkerOf n)) (Tree.node l ts).data := by
  rw [names_textOccurrences, count_markedNames, Tree.data_node, weight_append, Label.data, hl]
  dsimp only
  rw [weight_cons, Nat.add_assoc]
  exact Nat.le_add_right _ _

/-- A view of an element has no more records of a name than markers for it are in the element, given
that this holds of what is below the element. -/
theorem count_view_le (hn : ctx.names.Nodup) {n : String} {l : Label} {ts : List Tree}
    {v : Blueprint} (h : IsView ctx (ctx.elementLabel l) (ctx.partsAll [] ts) v)
    (hbelow : ((ctx.occurrencesAll .root [] ts).map (·.1) ++
      Blueprint.recordedInEntries (ctx.regionsAll .root [] (ctx.partsAll [] ts))).count n ≤
        weight (markCount (ctx.isMarkerOf n)) (ts.flatMap Tree.data)) :
    v.recordedNames.count n ≤ weight (markCount (ctx.isMarkerOf n)) (Tree.node l ts).data := by
  have hlabel := ctx.count_attributeOccurrences_le n .root l
  rw [List.count_append] at hbelow
  rw [(recordedNames_perm h).count_eq, viewRecords_eq hn, viewOccurrences, List.map_append,
    List.count_append, List.count_append, Tree.data_node, weight_append]
  omega

mutual

theorem count_parts_le (hn : ctx.names.Nodup) (n : String) (path path' : Path)
    (steps : List (NodeKind × String)) (before : List Label) (seen : List String) :
    ∀ t : Tree, Part.AllSound (ctx.parts seen t) →
      ((ctx.occurrences path steps t).map (·.1) ++ Blueprint.recordedInEntries
        (ctx.regionsAll path' before (ctx.parts seen t))).count n ≤
          weight (markCount (ctx.isMarkerOf n)) t.data
  | .node l ts => by
    rw [parts, occurrences]
    cases hc : l.content with
    | text value =>
      intro _
      have hregions : ctx.regionsAll path' before (if hasMarkers value then
          (segments value).filterMap ctx.segmentPart? else [.fixed (.node l ts)]) = [] := by
        split
        · exact regionsAll_segments _ _ _ _
        · rfl
      rw [hregions, Blueprint.recordedInEntries, List.append_nil]
      exact count_textOccurrences_le n path steps hc ts
    | comment value => exact fun _ => Nat.zero_le _
    | element name =>
      -- below a region the occurrences count for the region's view and not for this one
      dsimp only
      cases hm : ctx.mark? l with
      | none =>
        dsimp only
        intro hsound
        let here := path.extend (.child .element name (steps.count (.element, name)))
        let here' := path'.extend (frameAfter before (ctx.elementLabel l))
        have hlabel := ctx.count_attributeOccurrences_le n here l
        have hbelow := count_partsAll_le hn n here here' [] [] seen ts hsound.1.2
        rw [Option.isSome_none, if_neg Bool.false_ne_true, regionsAll, regions, regionsAll,
          List.append_nil, List.map_append, Tree.data_node, weight_append, List.append_assoc,
          List.count_append]
        exact Nat.add_le_add hlabel hbelow
      | some driver =>
        dsimp only
        split
        -- a region of a name that is taken is left out of the view with all its records
        · exact fun _ => Nat.zero_le _
        · intro hsound
          obtain ⟨hlabel, hdrivers, hparts⟩ := hsound.1
          have hview := isView_view ctx ⟨hlabel, hparts, hdrivers⟩
          have hbelow := count_partsAll_le hn n .root .root [] [] [] ts hparts
          rw [regionsAll, regions, regionsAll, List.append_nil,
            Blueprint.recordedInEntries_singleton]
          exact count_view_le hn hview hbelow

theorem count_partsAll_le (hn : ctx.names.Nodup) (n : String) (path path' : Path)
    (steps : List (NodeKind × String)) (before : List Label) (seen : List String) :
    ∀ ts : List Tree, Part.AllSound (ctx.partsAll seen ts) →
      ((ctx.occurrencesAll path steps ts).map (·.1) ++ Blueprint.recordedInEntries
        (ctx.regionsAll path' before (ctx.partsAll seen ts))).count n ≤
          weight (markCount (ctx.isMarkerOf n)) (ts.flatMap Tree.data)
  | [] => fun _ => Nat.zero_le _
  | t :: ts => by
    intro hsound
    rw [partsAll, Part.allSound_iff, List.forall_mem_append, ← Part.allSound_iff,
      ← Part.allSound_iff] at hsound
    have hfirst := count_parts_le hn n path path' steps before seen t hsound.1
    have hrest := count_partsAll_le hn n path path' (steps ++ ctx.standing t)
      (before ++ (treesAll (ctx.parts seen t)).map Tree.label) (seen ++ ctx.regionNames t) ts
      hsound.2
    rw [List.count_append] at hfirst hrest
    rw [partsAll, occurrencesAll, regionsAll_append, List.map_append,
      Blueprint.recordedInEntries_append, List.flatMap_cons, weight_append]
    simp only [List.count_append]
    omega

end

end CompileContext

/-- Each record in a view and in the views inside it is for a marker of its own. -/
theorem ViewOf.recordedNames_subperm {ctx : CompileContext} {t : Tree} {v : Blueprint}
    (h : ViewOf ctx t v) (hn : ctx.names.Nodup) :
    v.recordedNames.Subperm (t.markers.filterMap ctx.markerName?) := by
  rw [List.subperm_iff_count]
  intro n
  obtain ⟨l, ts, rfl, hview⟩ := h
  have hbelow := CompileContext.count_partsAll_le hn n .root .root [] [] [] ts hview.sound.parts
  rw [CompileContext.count_filterMap_markerName?, Tree.markers, countP_flatMap_occurrences]
  exact CompileContext.count_view_le hn hview hbelow

theorem Unassembled.markers_subperm {config : Config} {text : String}
    (h : Unassembled (scan text).1 config.sourceUrl config.preserveWhitespace)
    (hnone : firstMarker? text = none) :
    (parsedTemplate config text).markers.Subperm (writtenMarkers text) := by
  rw [List.subperm_ext_iff]
  intro digits _
  have hroots := h.weight_roots_le (· == digits)
  rw [markCount, occurrences_scan hnone, ← weight_data_skeletonRoot,
    ← countP_flatMap_occurrences] at hroots
  exact hroots

theorem names_writtenMarkers_sublist (config : Config) (text : String) :
    ((writtenMarkers text).filterMap
      (CompileContext.markerName? ⟨config, (scan text).2⟩)).Sublist (placeholderNames text) := by
  rw [writtenMarkers, List.filterMap_map]
  induction placeholderNames text with
  | nil => exact List.Sublist.refl _
  | cons n names ih =>
    rw [List.filterMap_cons]
    split
    · exact ih.cons n
    · rename_i m hm
      obtain rfl : m = n := CompileContext.markerName?_toDigits config hm
      exact ih.cons_cons m

/-- In a template that compiles only the names of placeholders are recorded, each record for a
marker of its own in the parsed tree. Where no marker arises otherwise, each record is for a
placeholder of its own. -/
theorem compile_stems {config : Config} {text : String} {targetClass : Option String}
    {b : Blueprint} {log : Log} (h : Blueprint.compile config text targetClass = (.ok b, log)) :
    (∀ n ∈ b.recordedNames, n ∈ placeholderNames text) ∧
    b.recordedNames.Subperm ((parsedTemplate config text).markers.filterMap
      (CompileContext.markerName? ⟨config, (scan text).2⟩)) ∧
    (Unassembled (scan text).1 config.sourceUrl config.preserveWhitespace →
      (parsedTemplate config text).markers.Subperm (writtenMarkers text) ∧
        b.recordedNames.Subperm (placeholderNames text)) := by
  have hrecords := (viewOf_parsedTemplate h).recordedNames_subperm (scan_nameList text).nodup
  refine ⟨fun n hmem => ?_, hrecords, fun hun => ?_⟩
  · obtain ⟨digits, -, hname⟩ := List.mem_filterMap.mp (hrecords.subset hmem)
    exact mem_placeholderNames_of_scan (CompileContext.mem_names_of_markerName? hname)
  · have hmarkers := hun.markers_subperm (compile_eq_ok h).1
    obtain ⟨ms, hperm, hsub⟩ := hmarkers
    have hnames := (hsub.filterMap _).trans (names_writtenMarkers_sublist config text)
    exact ⟨⟨ms, hperm, hsub⟩, hrecords.trans ⟨_, hperm.filterMap _, hnames⟩⟩

theorem exists_compile_of_map {α : Type} {config : Config} {text : String}
    {targetClass : Option String} {f : Blueprint → α} {a : α}
    (h : (Blueprint.compile config text targetClass).1.toOption.map f = some a) :
    ∃ b log, Blueprint.compile config text targetClass = (.ok b, log) ∧ f b = a := by
  rcases hcompile : Blueprint.compile config text targetClass with ⟨_ | b, log⟩
  · rw [hcompile] at h
    cases h
  · rw [hcompile] at h
    exact ⟨b, log, rfl, Option.some.inj h⟩

def noteText : String :=
  "<p title=\"$\x7ba\x7d &amp; $\x7ba\x7d\">$\x7ba\x7d</p><li data-repeat=\"r\">$\x7bb\x7d</li>"

theorem compile_noteText_stems :
    ∃ b log, Blueprint.compile .standard noteText none = (.ok b, log) ∧
      Unassembled (scan noteText).1 Config.standard.sourceUrl Config.standard.preserveWhitespace ∧
      b.recordedNames = ["a", "a", "b"] ∧ placeholderNames noteText = ["a", "a", "a", "b"] ∧
      b.recordedNames.Subperm (placeholderNames noteText) := by
  have hsome : (Blueprint.compile .standard noteText none).1.toOption.map Blueprint.recordedNames =
      some ["a", "a", "b"] := by decide +kernel
  obtain ⟨b, log, hcompile, hrecorded⟩ := exists_compile_of_map hsome
  have hreferences : Reference.NoMarkerChars (unifyLineEnds (scan noteText).1.toList) := by
    decide +kernel
  have hun : Unassembled (scan noteText).1 Config.standard.sourceUrl
      Config.standard.preserveWhitespace :=
    ⟨fun run => Reference.occurrences_decode hreferences, by decide +kernel⟩
  have hstems := (compile_stems hcompile).2.2 hun
  exact ⟨b, log, hcompile, hun, hrecorded, by decide +kernel, hstems.2⟩

/-- A reference for a dollar, and behind it what would be a marker with the dollar. -/
def priceText : String := "<p>$\x7ba\x7d</p>&#36;\x7b*0*\x7d"

/-- What is put together by a reference is recorded as a second placeholder, and the skeleton does
not have it. -/
theorem compile_priceText_forged :
    ∃ b log, Blueprint.compile .standard priceText none = (.ok b, log) ∧
      b.recordedNames = ["a", "a"] ∧ placeholderNames priceText = ["a"] ∧
      b.skeleton.render = "<div><p></p></div>" := by
  have hsome : (Blueprint.compile .standard priceText none).1.toOption.map
      (fun b => (b.recordedNames, b.skeleton.render)) =
        some (["a", "a"], "<div><p></p></div>") := by decide +kernel
  obtain ⟨b, log, hcompile, hview⟩ := exists_compile_of_map hsome
  obtain ⟨hrecorded, hrender⟩ := Prod.mk.inj hview
  exact ⟨b, log, hcompile, hrecorded, by decide +kernel, hrender⟩

end LiveMarkup
