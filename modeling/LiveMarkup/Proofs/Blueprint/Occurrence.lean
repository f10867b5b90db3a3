import LiveMarkup.Proofs.Blueprint.Closure

namespace LiveMarkup

open CompileContext

namespace CompileContext

/-! ### The part of a view in the parsed tree -/

def nameOf? (ctx : CompileContext) : Segment → Option String
  | .literal _ => none
  | .marker i => ctx.names[i]?

/-- The names in a text, each as often as it stands there. -/
def markedNames (ctx : CompileContext) (text : String) : List String :=
  (segments text).filterMap ctx.nameOf?

/-- A marker beyond the names leaves nothing in the skeleton. -/
def isKept (ctx : CompileContext) : Segment → Bool
  | .literal _ => true
  | .marker i => ctx.names[i]?.isSome

/-- The kinds and names of the nodes that a tree leaves among its siblings in the skeleton: none for
a region, one for each segment of a text with markers. -/
def standing (ctx : CompileContext) : Tree → List (NodeKind × String)
  | .node l _ =>
    match l.content with
    | .text value =>
      if hasMarkers value then ((segments value).filter ctx.isKept).map fun _ => (.text, "#text")
      else [(.text, "#text")]
    | .comment _ => [(.comment, "#comment")]
    | .element name => if (ctx.mark? l).isSome then [] else [(.element, name)]

/-- A marker of a name is an occurrence at the text node that it becomes, counted among texts. -/
def segmentOccurrence? (ctx : CompileContext) (path : Path) (g : Segment × Nat) :
    Option (String × BindingRecord) :=
  (ctx.nameOf? g.1).map fun n => (n, ⟨path.extend (.child .text "#text" g.2), .wholeText⟩)

/-- The segments of a text become text nodes behind those that are there. -/
def textOccurrences (ctx : CompileContext) (path : Path) (before : List (NodeKind × String))
    (value : String) : List (String × BindingRecord) :=
  (((segments value).filter ctx.isKept).zipIdx (before.count (.text, "#text"))).filterMap
    (ctx.segmentOccurrence? path)

/-- An attribute is one occurrence of each name in its value. The mark of a region is no attribute
of the skeleton. -/
def attributeOccurrences (ctx : CompileContext) (path : Path) (l : Label) :
    List (String × BindingRecord) :=
  (l.attributes.erase ctx.config.iterationAttribute).entries.flatMap fun a =>
    (ctx.markedNames a.2).eraseDups.map fun n =>
      (n, ⟨path.extend (.attribute (restore ctx.names a.1)), .ofText ctx.names a.2⟩)

mutual

/-- The occurrences in a tree below `path` behind the nodes `before` of the skeleton, in document
order. A region and a comment have none. -/
def occurrences (ctx : CompileContext) (path : Path) (before : List (NodeKind × String)) :
    Tree → List (String × BindingRecord)
  | .node l ts =>
    match l.content with
    | .text value => ctx.textOccurrences path before value
    | .comment _ => []
    | .element name =>
      if (ctx.mark? l).isSome then []
      else
        let here := path.extend (.child .element name (before.count (.element, name)))
        ctx.attributeOccurrences here l ++ ctx.occurrencesAll here [] ts

def occurrencesAll (ctx : CompileContext) (path : Path) (before : List (NodeKind × String)) :
    List Tree → List (String × BindingRecord)
  | [] => []
  | t :: ts => ctx.occurrences path before t ++ ctx.occurrencesAll path (before ++ ctx.standing t) ts

end

/-- The occurrences in the view whose root is the tree's. -/
def viewOccurrences (ctx : CompileContext) : Tree → List (String × BindingRecord)
  | .node l ts => ctx.attributeOccurrences .root l ++ ctx.occurrencesAll .root [] ts

mutual

/-- The labels in a tree that are in no region. -/
def ownLabels (ctx : CompileContext) : Tree → List Label
  | .node l ts =>
    match l.content with
    | .element _ => if (ctx.mark? l).isSome then [] else l :: ctx.ownLabelsAll ts
    | _ => [l]

def ownLabelsAll (ctx : CompileContext) : List Tree → List Label
  | [] => []
  | t :: ts => ctx.ownLabels t ++ ctx.ownLabelsAll ts

end

/-- The labels of the view whose root is the tree's. -/
def viewLabels (ctx : CompileContext) : Tree → List Label
  | .node l ts => l :: ctx.ownLabelsAll ts

/-- The names in the text or in the attribute values of a label. -/
def labelNames (ctx : CompileContext) (l : Label) : List String :=
  match l.content with
  | .text value => ctx.markedNames value
  | .comment _ => []
  | .element _ =>
    (l.attributes.erase ctx.config.iterationAttribute).entries.flatMap fun a => ctx.markedNames a.2

variable {ctx : CompileContext}

theorem firstOccurrences_eq (ns : List Nat) : firstOccurrences ns = ns.eraseDups := by
  induction ns using List.reverseRecOn with
  | nil => rfl
  | append_singleton ns n ih =>
    have hlast : firstOccurrences (ns ++ [n]) =
        if (firstOccurrences ns).contains n then firstOccurrences ns
        else firstOccurrences ns ++ [n] := by
      rw [firstOccurrences, List.foldl_append]
      rfl
    rw [hlast, List.eraseDups_append, ih]
    by_cases hn : n ∈ ns
    · simp [List.removeAll, hn]
    · simp [List.removeAll, hn, List.eraseDups_cons]

theorem eraseDups_filterMap {f : Nat → Option String} {ns : List Nat}
    (hf : ∀ i j n, f i = some n → f j = some n → i = j) :
    (ns.filterMap f).eraseDups = ns.eraseDups.filterMap f := by
  induction ns using List.reverseRecOn with
  | nil => rfl
  | append_singleton ns i ih =>
    rw [List.filterMap_append, List.eraseDups_append, List.eraseDups_append, List.filterMap_append, ih]
    congr 1
    cases hi : f i with
    | none => by_cases hmem : i ∈ ns <;> simp [List.removeAll, hi, hmem]
    | some n =>
      have hiff : (∃ j ∈ ns, f j = some n) ↔ i ∈ ns :=
        ⟨fun ⟨j, hj, hjn⟩ => hf j i n hjn hi ▸ hj, fun hmem => ⟨i, hmem, hi⟩⟩
      by_cases hmem : i ∈ ns
      · simp [List.removeAll, hi, hmem, hiff]
      · simp [List.removeAll, hi, hmem, hiff, List.eraseDups_cons]

/-- Different numbers stand for different names, so a name is marked once if its number is. -/
theorem namesIn_eq (hn : ctx.names.Nodup) (text : String) :
    ctx.namesIn text = (ctx.markedNames text).eraseDups := by
  have hmarked : ctx.markedNames text = ((segments text).filterMap fun
      | .literal _ => none
      | .marker n => some n).filterMap fun i => ctx.names[i]? := by
    rw [markedNames, List.filterMap_filterMap]
    refine List.filterMap_congr fun g _ => ?_
    cases g <;> rfl
  have hinj : ∀ (i j : Nat) (n : String), ctx.names[i]? = some n → ctx.names[j]? = some n → i = j := by
    intro i j n hi hj
    obtain ⟨hlt, -⟩ := List.getElem?_eq_some_iff.mp hi
    exact (List.getElem?_inj hlt hn).mp (hi.trans hj.symm)
  rw [namesIn, markerIndices, hmarked, firstOccurrences_eq]
  exact (eraseDups_filterMap hinj).symm

theorem isKept_of_nameOf? {g : Segment} {n : String} (h : ctx.nameOf? g = some n) :
    ctx.isKept g = true := by
  cases g with
  | literal text => rfl
  | marker i => exact Option.isSome_of_eq_some h

theorem markedNames_of_not_hasMarkers {text : String} (h : hasMarkers text = false) :
    ctx.markedNames text = [] := by
  rw [markedNames, segments_of_not_hasMarkers h, Segment.ofRun]
  split
  · rfl
  · rfl

theorem names_textOccurrences (path : Path) (before : List (NodeKind × String)) (value : String) :
    (ctx.textOccurrences path before value).map (·.1) = ctx.markedNames value := by
  have hzip : ∀ (gs : List Segment) (k : Nat),
      (((gs.filter ctx.isKept).zipIdx k).filterMap (ctx.segmentOccurrence? path)).map (·.1) =
        gs.filterMap ctx.nameOf? := by
    intro gs
    induction gs with
    | nil => exact fun k => rfl
    | cons g gs ih =>
      intro k
      cases hname : ctx.nameOf? g with
      | none =>
        rw [List.filterMap_cons_none hname]
        by_cases hkept : ctx.isKept g = true
        · rw [List.filter_cons_of_pos hkept, List.zipIdx_cons,
            List.filterMap_cons_none (by rw [segmentOccurrence?, hname]; rfl), ih]
        · rw [List.filter_cons_of_neg hkept, ih]
      | some n =>
        rw [List.filterMap_cons_some hname, List.filter_cons_of_pos (isKept_of_nameOf? hname),
          List.zipIdx_cons, List.filterMap_cons_some (by rw [segmentOccurrence?, hname]; rfl),
          List.map_cons, ih]
  exact hzip (segments value) _

/-! ### The records of parts -/

end CompileContext

/-- What siblings are counted by. -/
def Label.step (l : Label) : NodeKind × String := (l.kind, l.name)

namespace CompileContext

variable {ctx : CompileContext}

theorem frameAfter_eq (before : List Label) (l : Label) :
    frameAfter before l = .child l.kind l.name ((before.map Label.step).count l.step) := by
  rw [frameAfter, List.count, List.countP_map]
  rfl

theorem segmentPart?_eq_none {g : Segment} (h : ctx.isKept g = false) :
    ctx.segmentPart? g = none := by
  cases g with
  | literal text => cases h
  | marker i =>
    have hi : ctx.names[i]? = none := by simpa [isKept] using h
    rw [segmentPart?, hi]
    rfl

theorem exists_segmentPart? {g : Segment} (h : ctx.isKept g = true) : ∃ p,
    ctx.segmentPart? g = some p ∧ (trees p).map (fun t => t.label.step) = [(.text, "#text")] ∧
      ∀ path (bs : List Label), ctx.records path bs p =
        (ctx.segmentOccurrence? path (g, (bs.map Label.step).count (.text, "#text"))).toList := by
  cases g with
  | literal text => exact ⟨_, rfl, rfl, fun _ _ => rfl⟩
  | marker i =>
    obtain ⟨n, hi⟩ := Option.isSome_iff_exists.mp h
    refine ⟨.slot n, by rw [segmentPart?, hi]; rfl, rfl, fun path bs => ?_⟩
    have hname : ctx.nameOf? (.marker i) = some n := hi
    rw [records, frameAfter_eq, segmentOccurrence?, hname]
    rfl

theorem treesAll_segmentParts (gs : List Segment) :
    (treesAll (gs.filterMap ctx.segmentPart?)).map (fun t => t.label.step) =
      (gs.filter ctx.isKept).map fun _ => (.text, "#text") := by
  induction gs with
  | nil => rfl
  | cons g gs ih =>
    cases hkept : ctx.isKept g with
    | false =>
      rw [List.filterMap_cons_none (segmentPart?_eq_none hkept),
        List.filter_cons_of_neg (by simp [hkept]), ih]
    | true =>
      obtain ⟨p, hpart, hstep, -⟩ := exists_segmentPart? hkept
      rw [List.filterMap_cons_some hpart, List.filter_cons_of_pos hkept, treesAll, List.map_append,
        hstep, ih]
      rfl

theorem treesAll_parts (seen : List String) (t : Tree) :
    (treesAll (ctx.parts seen t)).map (fun t => t.label.step) = ctx.standing t := by
  obtain ⟨l, ts⟩ := t
  rw [parts, standing]
  cases hc : l.content with
  | text value =>
    dsimp only
    split
    · exact treesAll_segmentParts (segments value)
    · simp [treesAll, trees, Tree.label, Label.step, Label.kind, Label.name, hc, Content.kind,
        Content.name]
  | comment value =>
    have hstep : (ctx.commentLabel l value).step = (.comment, "#comment") := by
      rw [commentLabel]
      split
      · rfl
      · simp [Label.step, Label.kind, Label.name, hc, Content.kind, Content.name]
    simp [treesAll, trees, Tree.label, hstep]
  | element name =>
    cases hm : ctx.mark? l with
    | none =>
      simp [treesAll, trees, Tree.label, Label.step, Label.kind, Label.name, Label.blanked,
        elementLabel, hc, Content.kind, Content.name]
    | some n =>
      dsimp only
      split
      · rfl
      · rfl

theorem attributeRecords_eq (hn : ctx.names.Nodup) (path : Path) (l : Label) :
    ctx.attributeRecords path (ctx.elementLabel l).attributes.entries =
      ctx.attributeOccurrences path l := by
  rw [attributeRecords, attributeOccurrences, elementLabel, List.flatMap_map]
  refine List.flatMap_congr fun a _ => ?_
  by_cases hmarkers : hasMarkers a.2 = true
  · rw [if_pos hmarkers, namesIn_eq hn]
  · rw [if_neg hmarkers, markedNames_of_not_hasMarkers (by simpa using hmarkers)]
    rfl

theorem recordsAll_segmentParts (path : Path) (bs : List Label) (gs : List Segment) :
    ctx.recordsAll path bs (gs.filterMap ctx.segmentPart?) =
      ((gs.filter ctx.isKept).zipIdx ((bs.map Label.step).count (.text, "#text"))).filterMap
        (ctx.segmentOccurrence? path) := by
  induction gs generalizing bs with
  | nil => rfl
  | cons g gs ih =>
    cases hkept : ctx.isKept g with
    | false =>
      rw [List.filterMap_cons_none (segmentPart?_eq_none hkept),
        List.filter_cons_of_neg (by simp [hkept]), ih]
    | true =>
      obtain ⟨p, hpart, hstep, hrecords⟩ := exists_segmentPart? hkept
      have hcount : ((bs ++ (trees p).map Tree.label).map Label.step).count (.text, "#text") =
          (bs.map Label.step).count (.text, "#text") + 1 := by
        rw [List.map_append, List.map_map, List.count_append, Function.comp_def, hstep]
        rfl
      rw [List.filterMap_cons_some hpart, List.filter_cons_of_pos hkept, recordsAll, hrecords, ih,
        hcount, List.zipIdx_cons, List.filterMap_cons]
      cases ctx.segmentOccurrence? path (g, _) with
      | none => rfl
      | some o => rfl

mutual

theorem recordsAll_parts (hn : ctx.names.Nodup) (path : Path) (bs : List Label) (seen : List String) :
    ∀ t : Tree, ctx.recordsAll path bs (ctx.parts seen t) =
      ctx.occurrences path (bs.map Label.step) t
  | .node l ts => by
    rw [parts, occurrences]
    cases hc : l.content with
    | text value =>
      dsimp only
      split
      · exact recordsAll_segmentParts path bs (segments value)
      · rename_i hmarkers
        have hnone := ctx.names_textOccurrences path (bs.map Label.step) value
        rw [markedNames_of_not_hasMarkers (by simpa using hmarkers), List.map_eq_nil_iff] at hnone
        rw [hnone]
        rfl
    | comment value => rfl
    | element name =>
      cases hm : ctx.mark? l with
      | none =>
        dsimp only
        rw [recordsAll, records, recordsAll, List.append_nil, frameAfter_eq, attributeRecords_eq hn,
          recordsAll_partsAll hn _ [] seen ts]
        have hkind : (ctx.elementLabel l).kind = .element := by rw [Label.kind, elementLabel, hc]; rfl
        have hname : (ctx.elementLabel l).name = name := by rw [Label.name, elementLabel, hc]; rfl
        rw [Label.step, hkind, hname]
        rfl
      | some n =>
        dsimp only
        split
        · rfl
        · rfl

theorem recordsAll_partsAll (hn : ctx.names.Nodup) (path : Path) (bs : List Label)
    (seen : List String) : ∀ ts : List Tree, ctx.recordsAll path bs (ctx.partsAll seen ts) =
      ctx.occurrencesAll path (bs.map Label.step) ts
  | [] => rfl
  | t :: ts => by
    rw [partsAll, recordsAll_append, occurrencesAll, recordsAll_parts hn path bs seen t,
      recordsAll_partsAll hn path _ _ ts, List.map_append, List.map_map, ← treesAll_parts seen t]
    rfl

end

theorem viewRecords_eq (hn : ctx.names.Nodup) (l : Label) (ts : List Tree) :
    ctx.viewRecords (ctx.elementLabel l) (ctx.partsAll [] ts) = ctx.viewOccurrences (.node l ts) := by
  rw [viewRecords, viewOccurrences, attributeRecords_eq hn, recordsAll_partsAll hn .root [] [] ts]
  rfl

/-! ### Which names have occurrences -/

theorem mem_attributeOccurrences {path : Path} {l : Label} {n : String} :
    n ∈ (ctx.attributeOccurrences path l).map (·.1) ↔
      n ∈ (l.attributes.erase ctx.config.iterationAttribute).entries.flatMap fun a =>
        ctx.markedNames a.2 := by
  rw [attributeOccurrences, List.map_flatMap, List.mem_flatMap, List.mem_flatMap]
  simp

mutual

theorem mem_occurrences (path : Path) (before : List (NodeKind × String)) (n : String) :
    ∀ t : Tree, n ∈ (ctx.occurrences path before t).map (·.1) ↔
      ∃ l ∈ ctx.ownLabels t, n ∈ ctx.labelNames l
  | .node l ts => by
    rw [occurrences, ownLabels]
    cases hc : l.content with
    | text value => simp [names_textOccurrences, labelNames, hc]
    | comment value => simp [labelNames, hc]
    | element name =>
      cases hm : ctx.mark? l with
      | some m => simp
      | none =>
        have hlabel : n ∈ ctx.labelNames l ↔ n ∈ (ctx.attributeOccurrences
            (path.extend (.child .element name (before.count (.element, name)))) l).map (·.1) := by
          rw [mem_attributeOccurrences, labelNames, hc]
        dsimp only
        rw [Option.isSome_none, if_neg Bool.false_ne_true, if_neg Bool.false_ne_true, List.map_append,
          List.mem_append, ← hlabel, mem_occurrencesAll _ [] n ts]
        simp only [List.mem_cons, exists_eq_or_imp]

theorem mem_occurrencesAll (path : Path) (before : List (NodeKind × String)) (n : String) :
    ∀ ts : List Tree, n ∈ (ctx.occurrencesAll path before ts).map (·.1) ↔
      ∃ l ∈ ctx.ownLabelsAll ts, n ∈ ctx.labelNames l
  | [] => by simp [occurrencesAll, ownLabelsAll]
  | t :: ts => by
    rw [occurrencesAll, ownLabelsAll, List.map_append, List.mem_append, mem_occurrences path before n t,
      mem_occurrencesAll path _ n ts]
    simp only [List.mem_append, or_and_right, exists_or]

end

end CompileContext

end LiveMarkup
