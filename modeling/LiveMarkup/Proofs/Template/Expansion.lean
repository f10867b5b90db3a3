import LiveMarkup.Proofs.Blueprint.Part
import LiveMarkup.Proofs.Markup.Grammar

/-!
# Expansion of templates

What a template means is told directly on its tree: texts and attributes show values, and each
region gives way to one expansion for each item behind its siblings. The parts that the tree is
compiled to are filled in the same way, and both have the same markup.
-/

namespace LiveMarkup

/-- What a view shows: a value for a name, and the items for a region. -/
structure Scope where
  value? : String → Option Json
  items : String → List Json

/-- The scope of a view that has regions of the names `driven`. Such a name shows no value, and null
shows nothing at all. -/
def scopeOf (data : Json) (driven : List String) : Scope where
  value? name :=
    if data.isNull || driven.contains name then none else data.resolve? name
  items name :=
    if data.isNull then [] else
      match data.resolve? name with
      | some (.array items) => items
      | _ => []

theorem scopeOf_congr (data : Json) {driven driven' : List String}
    (h : ∀ n, n ∈ driven ↔ n ∈ driven') : scopeOf data driven = scopeOf data driven' := by
  have hcontains : ∀ n, driven.contains n = driven'.contains n := by
    intro n
    rw [Bool.eq_iff_iff, List.contains_iff_mem, List.contains_iff_mem]
    exact h n
  simp only [scopeOf, hcontains]

namespace CompileContext

/-- The text of a segment. A marker that stands for no name, or for one without a value, is empty. -/
def segmentText (ctx : CompileContext) (value? : String → Option Json) : Segment → String
  | .literal text => text
  | .marker i => (((ctx.names[i]?).bind value?).map Json.toText).getD ""

def fillText (ctx : CompileContext) (value? : String → Option Json) (text : String) : String :=
  String.join ((segments text).map (ctx.segmentText value?))

/-- The value of an attribute of an element. Where it has markers it is empty until one of them has
a value, and always where the live value of a form control stands for it. -/
def attributeText (ctx : CompileContext) (value? : String → Option Json) (element : String)
    (a : String × String) : String :=
  if hasMarkers a.2 then
    if isFormControl element && sameName a.1 "value" then ""
    else if (ctx.namesIn a.2).any fun n => (value? n).isSome then ctx.fillText value? a.2
    else ""
  else a.2

def shownLabel (ctx : CompileContext) (value? : String → Option Json) (l : Label) : Label :=
  { l with attributes := ⟨l.attributes.entries.map fun a =>
      (a.1, ctx.attributeText value? l.name a)⟩ }

mutual

/-- What stays of a tree in its place, behind trees with regions of the names `seen`. -/
def expand (ctx : CompileContext) (v : Scope) (seen : List String) : Tree → List Tree
  | .node l ts =>
    match l.content with
    | .text value => [.node { l with content := .text (ctx.fillText v.value? value) } ts]
    | .comment value => [.node (ctx.commentLabel l value) ts]
    | .element _ =>
      match ctx.mark? l with
      | none => [.node (ctx.shownLabel v.value? (ctx.elementLabel l))
          (ctx.expandAll v seen ts ++ ctx.copiesAll v seen ts)]
      | some _ => []

def expandAll (ctx : CompileContext) (v : Scope) (seen : List String) : List Tree → List Tree
  | [] => []
  | t :: ts => ctx.expand v seen t ++ ctx.expandAll v (seen ++ ctx.regionNames t) ts

/-- The copies of a tree that is a region: an expansion for each item. -/
def copies (ctx : CompileContext) (v : Scope) (seen : List String) : Tree → List Tree
  | .node l ts =>
    match l.content with
    | .element _ =>
      match ctx.mark? l with
      | none => []
      | some name =>
        if seen.contains name then []
        else (v.items name).map fun item =>
          .node (ctx.shownLabel (scopeOf item (ctx.regionNamesAll ts)).value? (ctx.elementLabel l))
            (ctx.expandAll (scopeOf item (ctx.regionNamesAll ts)) [] ts ++
              ctx.copiesAll (scopeOf item (ctx.regionNamesAll ts)) [] ts)
    | _ => []

def copiesAll (ctx : CompileContext) (v : Scope) (seen : List String) : List Tree → List Tree
  | [] => []
  | t :: ts => ctx.copies v seen t ++ ctx.copiesAll v (seen ++ ctx.regionNames t) ts

end

/-- The expansion of a whole template. Its root is no region. -/
def expandRoot (ctx : CompileContext) (data : Json) : Tree → Tree
  | .node l ts =>
    .node (ctx.shownLabel (scopeOf data (ctx.regionNamesAll ts)).value? (ctx.elementLabel l))
      (ctx.expandAll (scopeOf data (ctx.regionNamesAll ts)) [] ts ++
        ctx.copiesAll (scopeOf data (ctx.regionNamesAll ts)) [] ts)

mutual

def fill (ctx : CompileContext) (v : Scope) : Part → List Tree
  | .fixed t => [t]
  | .slot name => [.leaf (.text (((v.value? name).map Json.toText).getD ""))]
  | .element l ps => [.node (ctx.shownLabel v.value? l) (ctx.fillAll v ps ++ ctx.batchAll v ps)]
  | .region _ _ _ => []

def fillAll (ctx : CompileContext) (v : Scope) : List Part → List Tree
  | [] => []
  | p :: ps => ctx.fill v p ++ ctx.fillAll v ps

def batch (ctx : CompileContext) (v : Scope) : Part → List Tree
  | .fixed _ => []
  | .slot _ => []
  | .element _ _ => []
  | .region name l ps => (v.items name).map fun item =>
    .node (ctx.shownLabel (scopeOf item (driversAll ps)).value? l)
      (ctx.fillAll (scopeOf item (driversAll ps)) ps ++ ctx.batchAll (scopeOf item (driversAll ps)) ps)

def batchAll (ctx : CompileContext) (v : Scope) : List Part → List Tree
  | [] => []
  | p :: ps => ctx.batch v p ++ ctx.batchAll v ps

end

/-- What a view of the parts `ps` inside an element shows of some data. -/
def fillView (ctx : CompileContext) (l : Label) (ps : List Part) (data : Json) : Tree :=
  .node (ctx.shownLabel (scopeOf data (driversAll ps)).value? l)
    (ctx.fillAll (scopeOf data (driversAll ps)) ps ++ ctx.batchAll (scopeOf data (driversAll ps)) ps)

end CompileContext

namespace CompileContext

open LiveMarkup.Tree

variable (ctx : CompileContext)

theorem fillAll_append (v : Scope) (ps qs : List Part) :
    ctx.fillAll v (ps ++ qs) = ctx.fillAll v ps ++ ctx.fillAll v qs := by
  induction ps with
  | nil => rfl
  | cons p ps ih => rw [List.cons_append, fillAll, fillAll, ih, List.append_assoc]

theorem batchAll_append (v : Scope) (ps qs : List Part) :
    ctx.batchAll v (ps ++ qs) = ctx.batchAll v ps ++ ctx.batchAll v qs := by
  induction ps with
  | nil => rfl
  | cons p ps ih => rw [List.cons_append, batchAll, batchAll, ih, List.append_assoc]

theorem fillText_of_not_hasMarkers (value? : String → Option Json) {text : String}
    (h : hasMarkers text = false) : ctx.fillText value? text = text := by
  rw [fillText, segments_of_not_hasMarkers h]
  by_cases hempty : text.toList = []
  · rw [← String.toList_inj, hempty]
    rfl
  · simp [Segment.ofRun, hempty, segmentText]

/-- The texts of segments, one node for each, are written as the one text. -/
theorem render_fill_segments (v : Scope) (raw : Bool) (gs : List Segment) :
    renderAll raw (ctx.fillAll v (gs.filterMap ctx.segmentPart?)) =
      writtenText raw (String.join (gs.map (ctx.segmentText v.value?))) := by
  induction gs with
  | nil => cases raw <;> rfl
  | cons g gs ih =>
    have hjoin : String.join ((g :: gs).map (ctx.segmentText v.value?)) =
        ctx.segmentText v.value? g ++ String.join (gs.map (ctx.segmentText v.value?)) := by
      simp
    rw [hjoin, writtenText_append, ← ih]
    cases g with
    | literal text =>
      rw [List.filterMap_cons, segmentPart?]
      dsimp only
      rw [fillAll, fill, renderAll_append, renderAll_singleton]
      congr 1
    | marker i =>
      rw [List.filterMap_cons, segmentPart?, segmentText]
      cases hi : ctx.names[i]? with
      | none =>
        dsimp only [Option.map_none]
        rw [Option.bind_none, Option.map_none, Option.getD_none]
        cases raw <;> simp [writtenText, escapeText_empty]
      | some name =>
        dsimp only [Option.map_some]
        rw [fillAll, fill, renderAll_append, renderAll_singleton]
        congr 1

theorem batchAll_segments (v : Scope) (gs : List Segment) :
    ctx.batchAll v (gs.filterMap ctx.segmentPart?) = [] := by
  induction gs with
  | nil => rfl
  | cons g gs ih =>
    cases g with
    | literal text => exact ih
    | marker i =>
      rw [List.filterMap_cons, segmentPart?]
      cases ctx.names[i]? with
      | none => exact ih
      | some name => exact ih

theorem scopeOf_driversAll (data : Json) (ts : List Tree) :
    scopeOf data (driversAll (ctx.partsAll [] ts)) = scopeOf data (ctx.regionNamesAll ts) :=
  scopeOf_congr data fun n => by simp [mem_driversAll_partsAll]

mutual

/-- The parts of a tree are filled with the markup of its expansion. -/
theorem render_fillAll_parts (raw : Bool) (v : Scope) (seen : List String) : ∀ t : Tree,
    renderAll raw (ctx.fillAll v (ctx.parts seen t)) = renderAll raw (ctx.expand v seen t) ∧
      renderAll raw (ctx.batchAll v (ctx.parts seen t)) = renderAll raw (ctx.copies v seen t)
  | .node l ts => by
    rw [parts, expand, copies]
    cases hc : l.content with
    | text value =>
      dsimp only
      by_cases hmarkers : hasMarkers value = true
      · rw [if_pos hmarkers, render_fill_segments, batchAll_segments, renderAll_singleton,
          renderIn_text]
        exact ⟨rfl, rfl⟩
      · rw [Bool.not_eq_true] at hmarkers
        rw [hmarkers, if_neg Bool.false_ne_true, fillText_of_not_hasMarkers _ _ hmarkers, ← hc]
        exact ⟨rfl, rfl⟩
    | comment value => exact ⟨rfl, rfl⟩
    | element name =>
      dsimp only
      cases hm : ctx.mark? l with
      | none =>
        dsimp only
        rw [fillAll, fill, fillAll, batchAll, batch, batchAll, List.append_nil,
          renderAll_singleton, renderAll_singleton]
        refine ⟨renderIn_congr rfl rfl (fun r => ?_) raw, rfl⟩
        obtain ⟨hfill, hbatch⟩ := render_fillAll_partsAll r v seen ts
        rw [renderAll_append, renderAll_append, hfill, hbatch]
      | some n =>
        dsimp only
        by_cases hs : seen.contains n = true
        · rw [if_pos hs, if_pos hs]
          exact ⟨rfl, rfl⟩
        · rw [if_neg hs, if_neg hs, fillAll, fill, fillAll, batchAll, batch, batchAll,
            List.append_nil, List.append_nil]
          simp only [scopeOf_driversAll]
          refine ⟨trivial, ?_⟩
          induction v.items n with
          | nil => rfl
          | cons item items ih =>
            rw [List.map_cons, List.map_cons, renderAll, renderAll, ih]
            congr 1
            refine renderIn_congr rfl rfl (fun r => ?_) raw
            obtain ⟨hfill, hbatch⟩ := render_fillAll_partsAll r
              (scopeOf item (ctx.regionNamesAll ts)) [] ts
            rw [renderAll_append, renderAll_append, hfill, hbatch]

theorem render_fillAll_partsAll (raw : Bool) (v : Scope) (seen : List String) : ∀ ts : List Tree,
    renderAll raw (ctx.fillAll v (ctx.partsAll seen ts)) = renderAll raw (ctx.expandAll v seen ts) ∧
      renderAll raw (ctx.batchAll v (ctx.partsAll seen ts)) = renderAll raw (ctx.copiesAll v seen ts)
  | [] => ⟨rfl, rfl⟩
  | t :: ts => by
    obtain ⟨hfill, hbatch⟩ := render_fillAll_parts raw v seen t
    obtain ⟨hfill', hbatch'⟩ := render_fillAll_partsAll raw v (seen ++ ctx.regionNames t) ts
    rw [partsAll, expandAll, copiesAll, fillAll_append, batchAll_append, renderAll_append,
      renderAll_append, renderAll_append, renderAll_append, hfill, hbatch, hfill', hbatch']
    exact ⟨rfl, rfl⟩

end

/-- A view filled with data is written as the expansion of the tree that it was compiled from. -/
theorem render_fillView (l : Label) (ts : List Tree) (data : Json) :
    (ctx.fillView (ctx.elementLabel l) (ctx.partsAll [] ts) data).render =
      (ctx.expandRoot data (.node l ts)).render := by
  rw [fillView, expandRoot, scopeOf_driversAll, render, render]
  refine renderIn_congr rfl rfl (fun r => ?_) false
  obtain ⟨hfill, hbatch⟩ := ctx.render_fillAll_partsAll r (scopeOf data (ctx.regionNamesAll ts)) [] ts
  rw [renderAll_append, renderAll_append, hfill, hbatch]

end CompileContext

end LiveMarkup
