import LiveMarkup.Blueprint.Compiler
import LiveMarkup.Proofs.Markup.AttributeNames
import LiveMarkup.Proofs.Placeholder.Restoring

/-!
# Parts of a view

What becomes of a tree is told by parts: trees that stay as they are, texts of one property each,
elements, and regions in the places where they were taken out. The skeleton, the records and the
regions of a view are read off its parts, and compiling yields just these.
-/

namespace LiveMarkup

/-- An element's label has its attribute names restored and its attribute values as written. -/
inductive Part where
  | fixed (t : Tree)
  | slot (name : String)
  | element (l : Label) (parts : List Part)
  | region (name : String) (l : Label) (parts : List Part)

namespace Part

@[elab_as_elim, induction_eliminator]
theorem induction {motive : Part → Prop} (fixed : ∀ t, motive (.fixed t))
    (slot : ∀ name, motive (.slot name))
    (element : ∀ l ps, (∀ p ∈ ps, motive p) → motive (.element l ps))
    (region : ∀ name l ps, (∀ p ∈ ps, motive p) → motive (.region name l ps)) : ∀ p, motive p
  | .fixed t => fixed t
  | .slot name => slot name
  | .element l ps => element l ps (go ps)
  | .region name l ps => region name l ps (go ps)
where
  go : ∀ ps : List Part, ∀ p ∈ ps, motive p
    | [], _, h => by cases h
    | p :: ps, p', h =>
      (List.mem_cons.mp h).elim (fun e => e ▸ induction fixed slot element region p)
        (fun h => go ps p' h)

end Part

def recordTable (start : Table (List BindingRecord)) (rs : List (String × BindingRecord)) :
    Table (List BindingRecord) :=
  rs.foldl (fun t r => t.put r.1 ((t.get? r.1).getD [] ++ [r.2])) start

def regionTable (start : Table (Region Blueprint)) (gs : List (String × Region Blueprint)) :
    Table (Region Blueprint) :=
  gs.foldl (fun t g => t.put g.1 g.2) start

namespace Label

/-- The label as the skeleton has it: an attribute with markers is empty. -/
def blanked (l : Label) : Label :=
  { l with attributes := ⟨l.attributes.entries.map fun a =>
      (a.1, if hasMarkers a.2 then "" else a.2)⟩ }

end Label

namespace CompileContext

/-! ### Reading parts -/

def frameAfter (before : List Label) (l : Label) : Frame :=
  .child l.kind l.name (before.countP (Label.sameStep l.kind l.name))

mutual

/-- The skeleton of a part. A region leaves nothing where it was. -/
def trees : Part → List Tree
  | .fixed t => [t]
  | .slot _ => [.leaf (.text "")]
  | .element l ps => [.node l.blanked (treesAll ps)]
  | .region _ _ _ => []

def treesAll : List Part → List Tree
  | [] => []
  | p :: ps => trees p ++ treesAll ps

end

/-- The attributes with markers are locations of each of their properties. -/
def attributeRecords (ctx : CompileContext) (path : Path) (attributes : List (String × String)) :
    List (String × BindingRecord) :=
  attributes.flatMap fun a =>
    if hasMarkers a.2 then
      (ctx.namesIn a.2).map fun name =>
        (name, ⟨path.extend (.attribute a.1), .ofText ctx.names a.2⟩)
    else []

mutual

/-- The locations in a part below `path` behind the siblings `before`, in document order. -/
def records (ctx : CompileContext) (path : Path) (before : List Label) :
    Part → List (String × BindingRecord)
  | .fixed _ => []
  | .slot name => [(name, ⟨path.extend (frameAfter before (.text "")), .wholeText⟩)]
  | .element l ps =>
    ctx.attributeRecords (path.extend (frameAfter before l)) l.attributes.entries ++
      ctx.recordsAll (path.extend (frameAfter before l)) [] ps
  | .region _ _ _ => []

def recordsAll (ctx : CompileContext) (path : Path) (before : List Label) :
    List Part → List (String × BindingRecord)
  | [] => []
  | p :: ps => ctx.records path before p ++ ctx.recordsAll path (before ++ (trees p).map Tree.label) ps

end

mutual

/-- The regions of a part, each with the path of the node around it. -/
def regions (ctx : CompileContext) (path : Path) (before : List Label) :
    Part → List (String × Region Blueprint)
  | .fixed _ => []
  | .slot _ => []
  | .element l ps => ctx.regionsAll (path.extend (frameAfter before l)) [] ps
  | .region name l ps =>
    [(name, ⟨path, ⟨.node l.blanked (treesAll ps),
      recordTable .empty (ctx.attributeRecords .root l.attributes.entries ++
        ctx.recordsAll .root [] ps),
      regionTable .empty (ctx.regionsAll .root [] ps), ctx.config.defaultClass⟩⟩)]

def regionsAll (ctx : CompileContext) (path : Path) (before : List Label) :
    List Part → List (String × Region Blueprint)
  | [] => []
  | p :: ps => ctx.regions path before p ++ ctx.regionsAll path (before ++ (trees p).map Tree.label) ps

end

def viewRecords (ctx : CompileContext) (l : Label) (ps : List Part) : List (String × BindingRecord) :=
  ctx.attributeRecords .root l.attributes.entries ++ ctx.recordsAll .root [] ps

def view (ctx : CompileContext) (l : Label) (ps : List Part) : Blueprint :=
  ⟨.node l.blanked (treesAll ps), recordTable .empty (ctx.viewRecords l ps),
    regionTable .empty (ctx.regionsAll .root [] ps), ctx.config.defaultClass⟩

mutual

/-- The names of the regions of a part that are not inside other ones. -/
def drivers : Part → List String
  | .fixed _ => []
  | .slot _ => []
  | .element _ ps => driversAll ps
  | .region name _ _ => [name]

def driversAll : List Part → List String
  | [] => []
  | p :: ps => drivers p ++ driversAll ps

end

/-! ### The parts of a tree -/

def mark? (ctx : CompileContext) (l : Label) : Option String :=
  (l.attributes.get? ctx.config.iterationAttribute).bind ctx.regionName?

/-- The label without the mark, and with placeholders put back in the attribute names. -/
def elementLabel (ctx : CompileContext) (l : Label) : Label :=
  { l with attributes := ⟨(l.attributes.erase ctx.config.iterationAttribute).entries.map fun a =>
      (restore ctx.names a.1, a.2)⟩ }

def commentLabel (ctx : CompileContext) (l : Label) (value : String) : Label :=
  if hasMarkers value then { l with content := .comment (restore ctx.names value) } else l

/-- A literal run is a text of its own, and so is each marker that stands for a name. -/
def segmentPart? (ctx : CompileContext) : Segment → Option Part
  | .literal text => some (.fixed (.leaf (.text text)))
  | .marker i => (ctx.names[i]?).map .slot

mutual

/-- The names that the elements of a tree are regions of, but for elements inside of regions. -/
def regionNames (ctx : CompileContext) : Tree → List String
  | .node l ts =>
    match l.content with
    | .element _ =>
      match ctx.mark? l with
      | some name => [name]
      | none => ctx.regionNamesAll ts
    | _ => []

def regionNamesAll (ctx : CompileContext) : List Tree → List String
  | [] => []
  | t :: ts => ctx.regionNames t ++ ctx.regionNamesAll ts

end

mutual

/-- The parts that a tree becomes behind trees with regions of the names `seen`. -/
def parts (ctx : CompileContext) (seen : List String) : Tree → List Part
  | .node l ts =>
    match l.content with
    | .text value =>
      if hasMarkers value then (segments value).filterMap ctx.segmentPart? else [.fixed (.node l ts)]
    | .comment value => [.fixed (.node (ctx.commentLabel l value) ts)]
    | .element _ =>
      match ctx.mark? l with
      | none => [.element (ctx.elementLabel l) (ctx.partsAll seen ts)]
      | some name =>
        if seen.contains name then [] else [.region name (ctx.elementLabel l) (ctx.partsAll [] ts)]

def partsAll (ctx : CompileContext) (seen : List String) : List Tree → List Part
  | [] => []
  | t :: ts => ctx.parts seen t ++ ctx.partsAll (seen ++ ctx.regionNames t) ts

end

/-! ### Lists of parts -/

theorem treesAll_append (ps qs : List Part) : treesAll (ps ++ qs) = treesAll ps ++ treesAll qs := by
  induction ps with
  | nil => rfl
  | cons p ps ih => rw [List.cons_append, treesAll, treesAll, ih, List.append_assoc]

theorem recordsAll_append (ctx : CompileContext) (path : Path) (before : List Label)
    (ps qs : List Part) :
    ctx.recordsAll path before (ps ++ qs) = ctx.recordsAll path before ps ++
      ctx.recordsAll path (before ++ (treesAll ps).map Tree.label) qs := by
  induction ps generalizing before with
  | nil => simp [recordsAll, treesAll]
  | cons p ps ih =>
    rw [List.cons_append, recordsAll, recordsAll, ih, treesAll, List.map_append, List.append_assoc,
      List.append_assoc]

theorem regionsAll_append (ctx : CompileContext) (path : Path) (before : List Label)
    (ps qs : List Part) :
    ctx.regionsAll path before (ps ++ qs) = ctx.regionsAll path before ps ++
      ctx.regionsAll path (before ++ (treesAll ps).map Tree.label) qs := by
  induction ps generalizing before with
  | nil => simp [regionsAll, treesAll]
  | cons p ps ih =>
    rw [List.cons_append, regionsAll, regionsAll, ih, treesAll, List.map_append, List.append_assoc,
      List.append_assoc]

theorem driversAll_eq (ps : List Part) : driversAll ps = ps.flatMap drivers := by
  induction ps with
  | nil => rfl
  | cons p ps ih => rw [driversAll, ih, List.flatMap_cons]

theorem driversAll_append (ps qs : List Part) :
    driversAll (ps ++ qs) = driversAll ps ++ driversAll qs := by
  rw [driversAll_eq, driversAll_eq, driversAll_eq, List.flatMap_append]

mutual

theorem names_regions (ctx : CompileContext) (path : Path) (before : List Label) :
    ∀ p : Part, (ctx.regions path before p).map (·.1) = drivers p
  | .fixed _ => rfl
  | .slot _ => rfl
  | .element _ ps => by
    rw [regions, drivers]
    exact names_regionsAll ctx _ _ ps
  | .region _ _ _ => rfl

theorem names_regionsAll (ctx : CompileContext) (path : Path) (before : List Label) :
    ∀ ps : List Part, (ctx.regionsAll path before ps).map (·.1) = driversAll ps
  | [] => rfl
  | p :: ps => by
    rw [regionsAll, driversAll, List.map_append, names_regions ctx path before p,
      names_regionsAll ctx path _ ps]

end

theorem driversAll_segments (ctx : CompileContext) (gs : List Segment) :
    driversAll (gs.filterMap ctx.segmentPart?) = [] := by
  induction gs with
  | nil => rfl
  | cons g gs ih =>
    cases g with
    | literal text => exact ih
    | marker i =>
      rw [List.filterMap_cons, segmentPart?]
      cases ctx.names[i]? with
      | none => exact ih
      | some name => exact ih

theorem regionsAll_segments (ctx : CompileContext) (path : Path) (before : List Label)
    (gs : List Segment) : ctx.regionsAll path before (gs.filterMap ctx.segmentPart?) = [] := by
  have hnames := names_regionsAll ctx path before (gs.filterMap ctx.segmentPart?)
  rw [driversAll_segments] at hnames
  exact List.map_eq_nil_iff.mp hnames

mutual

theorem mem_driversAll_parts (ctx : CompileContext) (seen : List String) (n : String) :
    ∀ t : Tree, n ∈ driversAll (ctx.parts seen t) ↔ n ∈ ctx.regionNames t ∧ n ∉ seen
  | .node l ts => by
    rw [parts, regionNames]
    cases hc : l.content with
    | text value =>
      dsimp only
      split
      · simp [driversAll_segments]
      · simp [driversAll, drivers]
    | comment value => simp [driversAll, drivers]
    | element name =>
      dsimp only
      cases hm : ctx.mark? l with
      | none =>
        dsimp only
        rw [driversAll, drivers, driversAll, List.append_nil]
        exact mem_driversAll_partsAll ctx seen n ts
      | some name =>
        dsimp only
        by_cases hs : name ∈ seen
        · rw [if_pos (by simpa using hs), List.mem_singleton]
          simp only [driversAll, List.not_mem_nil, false_iff, not_and, not_not]
          exact fun e => e ▸ hs
        · rw [if_neg (by simpa using hs), driversAll, drivers, driversAll, List.append_nil,
            List.mem_singleton]
          exact ⟨fun e => ⟨e, e ▸ hs⟩, And.left⟩

theorem mem_driversAll_partsAll (ctx : CompileContext) (seen : List String) (n : String) :
    ∀ ts : List Tree, n ∈ driversAll (ctx.partsAll seen ts) ↔ n ∈ ctx.regionNamesAll ts ∧ n ∉ seen
  | [] => by simp [partsAll, driversAll, regionNamesAll]
  | t :: ts => by
    rw [partsAll, driversAll_append, regionNamesAll, List.mem_append, List.mem_append,
      mem_driversAll_parts ctx seen n t, mem_driversAll_partsAll ctx _ n ts, List.mem_append, not_or]
    tauto

end

mutual

theorem nodup_driversAll_parts (ctx : CompileContext) (seen : List String) :
    ∀ t : Tree, (driversAll (ctx.parts seen t)).Nodup
  | .node l ts => by
    rw [parts]
    cases hc : l.content with
    | text value =>
      dsimp only
      split
      · simp [driversAll_segments]
      · simp [driversAll, drivers]
    | comment value => simp [driversAll, drivers]
    | element name =>
      dsimp only
      split
      · rw [driversAll, drivers, driversAll, List.append_nil]
        exact nodup_driversAll_partsAll ctx seen ts
      · split
        · simp [driversAll]
        · simp [driversAll, drivers]

theorem nodup_driversAll_partsAll (ctx : CompileContext) (seen : List String) :
    ∀ ts : List Tree, (driversAll (ctx.partsAll seen ts)).Nodup
  | [] => by simp [partsAll, driversAll]
  | t :: ts => by
    rw [partsAll, driversAll_append, List.nodup_append]
    refine ⟨nodup_driversAll_parts ctx seen t, nodup_driversAll_partsAll ctx _ ts, ?_⟩
    intro x hx y hy e
    rw [mem_driversAll_parts] at hx
    rw [mem_driversAll_partsAll, List.mem_append, not_or] at hy
    exact hy.2.2 (e ▸ hx.1)

end

end CompileContext

/-! ### Sound parts -/

structure Label.IsSound (l : Label) : Prop where
  element : l.content.isElement = true
  nodup : l.attributes.names.Nodup

mutual

/-- All labels in the part are sound, and in each view the regions have different names. -/
def Part.IsSound : Part → Prop
  | .fixed _ => True
  | .slot _ => True
  | .element l ps => l.IsSound ∧ Part.AllSound ps
  | .region _ l ps => l.IsSound ∧ (CompileContext.driversAll ps).Nodup ∧ Part.AllSound ps

def Part.AllSound : List Part → Prop
  | [] => True
  | p :: ps => Part.IsSound p ∧ Part.AllSound ps

end

theorem Part.allSound_iff (ps : List Part) : Part.AllSound ps ↔ ∀ p ∈ ps, p.IsSound := by
  induction ps with
  | nil => simp [AllSound]
  | cons p ps ih => rw [AllSound, ih, List.forall_mem_cons]

structure SoundView (l : Label) (ps : List Part) : Prop where
  label : l.IsSound
  parts : Part.AllSound ps
  drivers : (CompileContext.driversAll ps).Nodup

namespace CompileContext

def NamesApart (ctx : CompileContext) (l : Label) : Prop :=
  (l.attributes.names.map (restore ctx.names)).Nodup

theorem elementLabel_isSound (ctx : CompileContext) {l : Label} {name : String}
    (hc : l.content = .element name) (h : ctx.NamesApart l) :
    (ctx.elementLabel l).IsSound := by
  refine ⟨by rw [elementLabel, hc]; rfl, ?_⟩
  have hsub : (l.attributes.erase ctx.config.iterationAttribute).names.Sublist l.attributes.names :=
    (List.eraseP_sublist).map _
  have hnodup := (hsub.map (restore ctx.names)).nodup h
  rw [elementLabel, Table.names, List.map_map]
  rw [Table.names, List.map_map] at hnodup
  exact hnodup

mutual

theorem parts_allSound (ctx : CompileContext) (seen : List String) :
    ∀ t : Tree, t.EveryLabel ctx.NamesApart → Part.AllSound (ctx.parts seen t)
  | .node l ts, h => by
    obtain ⟨hlabel, hbelow⟩ : ctx.NamesApart l ∧ ∀ t ∈ ts, t.EveryLabel ctx.NamesApart := by
      cases h with
      | node label below => exact ⟨label, below⟩
    rw [parts]
    cases hc : l.content with
    | text value =>
      dsimp only
      split
      · rw [Part.allSound_iff]
        intro p hp
        obtain ⟨g, -, hg⟩ := List.mem_filterMap.mp hp
        cases g with
        | literal text => cases hg; trivial
        | marker i =>
          obtain ⟨name, -, rfl⟩ := Option.map_eq_some_iff.mp hg
          trivial
      · exact ⟨trivial, trivial⟩
    | comment value => exact ⟨trivial, trivial⟩
    | element name =>
      have hsound := ctx.elementLabel_isSound hc hlabel
      dsimp only
      split
      · exact ⟨⟨hsound, partsAll_allSound ctx seen ts hbelow⟩, trivial⟩
      · split
        · exact trivial
        · exact ⟨⟨hsound, nodup_driversAll_partsAll ctx [] ts, partsAll_allSound ctx [] ts hbelow⟩,
            trivial⟩

theorem partsAll_allSound (ctx : CompileContext) (seen : List String) :
    ∀ ts : List Tree, (∀ t ∈ ts, t.EveryLabel ctx.NamesApart) →
      Part.AllSound (ctx.partsAll seen ts)
  | [], _ => trivial
  | t :: ts, h => by
    have hfirst := parts_allSound ctx seen t (h t List.mem_cons_self)
    have hrest := partsAll_allSound ctx (seen ++ ctx.regionNames t) ts fun u hu =>
      h u (List.mem_cons_of_mem _ hu)
    rw [Part.allSound_iff] at hfirst hrest ⊢
    intro p hp
    rw [partsAll, List.mem_append] at hp
    exact hp.elim (hfirst p) (hrest p)

end

end CompileContext

theorem soundView_of_everyLabel {ctx : CompileContext} {l : Label} {ts : List Tree}
    (hl : l.content.isElement = true) (h : (Tree.node l ts).EveryLabel ctx.NamesApart) :
    SoundView (ctx.elementLabel l) (ctx.partsAll [] ts) := by
  cases h with
  | node label below =>
    cases hc : l.content with
    | text value => rw [hc] at hl; cases hl
    | comment value => rw [hc] at hl; cases hl
    | element name =>
      exact ⟨ctx.elementLabel_isSound hc label, ctx.partsAll_allSound [] ts below,
        ctx.nodup_driversAll_partsAll [] ts⟩

end LiveMarkup
