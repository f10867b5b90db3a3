import LiveMarkup.Proofs.Blueprint.Relabelling
import LiveMarkup.Proofs.Document.Renaming

/-!
# What the walk does

Each visit replaces a child of the node that it stands at by the nodes of its parts, notes the places
of their properties and the anchors of their regions, and leaves the rest of the document alone, so
handles that are noted stay good until the walk is over. The visits below a node come to their end
before the next one on the stack begins.
-/

namespace LiveMarkup

open CompileContext Site

/-- The walker `w'` is `w` with the nodes of the sites `ss` in place of the children `cs` of `x`, and
with the places and the regions of the sites. -/
structure Walked (ctx : CompileContext) (w w' : TreeWalker) (x : NodeId) (bs : List NodeId)
    (cs : List Shape) (rs : List NodeId) (ss : List Site) : Prop where
  splices : w.document.Splices w'.document x bs cs rs (shapesAll ss)
  trees : (shapesAll ss).map w'.document.treeAt = treesAll (Site.parts ss)
  bindings : w'.bindings = w.bindings.bindAll (places ctx (marksAll ss))
  regions : w'.regions.entries = w.regions.entries ++ (anchoredAll x ss).map (foundAnchor ctx)
  log : LogsTo w.log w'.log

theorem Walked.append {ctx : CompileContext} {w w₁ w₂ : TreeWalker} {x : NodeId} {bs rs : List NodeId}
    {cs ks : List Shape} {ss us : List Site} (h : w.document.Siblings x bs (cs ++ ks) rs)
    (h₁ : Walked ctx w w₁ x bs cs (ks.map Shape.id ++ rs) ss)
    (h₂ : Walked ctx w₁ w₂ x (bs ++ (shapesAll ss).map Shape.id) ks rs us) :
    Walked ctx w w₂ x bs (cs ++ ks) rs (ss ++ us) where
  splices := by
    rw [shapesAll_append]
    exact .append h h₁.splices h₂.splices
  trees := by
    rw [shapesAll_append, parts_append, treesAll_append, List.map_append, h₂.trees, ← h₁.trees,
      Document.Splices.treeAt_left h h₁.splices h₂.splices]
  bindings := by
    rw [marksAll_append, places_append, Bindings.bindAll_append, h₂.bindings, h₁.bindings]
  regions := by
    rw [anchoredAll_append, List.map_append, h₂.regions, h₁.regions, List.append_assoc]
  log := h₁.log.trans h₂.log

/-- What is copied out of a document stands on its own. -/
theorem Document.Holds.exists_importFrom {d : Document} {p : Option NodeId} {c : Shape}
    (h : d.Holds p c) (hn : c.ids.Nodup) : ∃ e s, empty.importFrom d c.id = (e, some s.id) ∧
      e.HoldsTree s (d.treeAt c) ∧ s.ids.length = c.ids.length := by
  obtain ⟨s, hcopy, hid⟩ := tidy_empty.graft (d.treeAt c)
  refine ⟨_, s, ?_, hcopy.holdsTree, Shape.length_ids_of_treeAt hcopy.tree⟩
  rw [importFrom, h.tree? hn, hid]

namespace CompileContext

variable (ctx : CompileContext)

/-! ### Visits and steps -/

theorem walk_nil (steps : Nat) (root : NodeId) (w : TreeWalker) : ctx.walk steps root [] w = w := by
  cases steps <;> rfl

def compileNested (steps : Nat) (d : Document) (root : NodeId) (log : Log) : Blueprint × Log :=
  ctx.compileTree steps d root [] ctx.config.defaultClass log

theorem walk_cons (steps : Nat) (root : NodeId) (v : Visit) (todo : List Visit) (w : TreeWalker) :
    ctx.walk (steps + 1) root (v :: todo) w =
      ctx.walk steps root ((ctx.visit (ctx.compileNested steps) root w v).1 ++ todo)
        (ctx.visit (ctx.compileNested steps) root w v).2 := rfl

/-- With the visits `vs` in front of others the walk comes to `w'` in at most `n` steps, and goes on
with the others. -/
def WalksTo (root : NodeId) (vs : List Visit) (n : Nat) (w w' : TreeWalker) : Prop :=
  ∀ steps todo, n ≤ steps → ∃ left, steps ≤ left + n ∧
    ctx.walk steps root (vs ++ todo) w = ctx.walk left root todo w'

variable {ctx} {root : NodeId} {vs us : List Visit} {n m : Nat} {w w₁ w₂ : TreeWalker}

theorem WalksTo.nil (n : Nat) (w : TreeWalker) : ctx.WalksTo root [] n w w := fun steps _ _ =>
  ⟨steps, Nat.le_add_right steps n, rfl⟩

theorem WalksTo.append (h : ctx.WalksTo root vs n w w₁) (h' : ctx.WalksTo root us m w₁ w₂) :
    ctx.WalksTo root (vs ++ us) (n + m) w w₂ := by
  intro steps todo hsteps
  obtain ⟨left, hleft, hfirst⟩ := h steps (us ++ todo) (by omega)
  obtain ⟨left', hleft', hsecond⟩ := h' left todo (by omega)
  exact ⟨left', by omega, by rw [List.append_assoc, hfirst, hsecond]⟩

theorem WalksTo.visit {v : Visit}
    (hv : ∀ steps, n ≤ steps → ctx.visit (ctx.compileNested steps) root w v = (vs, w₁))
    (h : ctx.WalksTo root vs n w₁ w₂) : ctx.WalksTo root [v] (n + 1) w w₂ := by
  intro steps todo hsteps
  obtain ⟨steps, rfl⟩ := Nat.exists_eq_add_of_le' (Nat.le_of_add_left_le hsteps)
  obtain ⟨left, hleft, hrest⟩ := h steps todo (by omega)
  refine ⟨left, by omega, ?_⟩
  rw [List.singleton_append, walk_cons, hv steps (by omega), hrest]

theorem WalksTo.mono (h : ctx.WalksTo root vs n w w₁) (hle : n ≤ m) : ctx.WalksTo root vs m w w₁ := by
  intro steps todo hsteps
  obtain ⟨left, hleft, hwalk⟩ := h steps todo (by omega)
  exact ⟨left, by omega, hwalk⟩

def visitAt (d : Document) (x : NodeId) (c : Shape) : Visit := .ofKind x c.id (d.treeAt c).label.kind

theorem visits_eq {d : Document} {id : NodeId} {cs : List Shape} (h : d.Siblings id [] cs []) :
    d.visits id = cs.map (visitAt d id) := by
  obtain ⟨l, p, hid⟩ := h.parent
  rw [Document.visits, Document.children_of_node? hid, List.nil_append, List.append_nil,
    List.filterMap_map, ← List.filterMap_eq_map]
  refine List.filterMap_congr fun c hc => ?_
  obtain ⟨lc, hread⟩ := (h.holds c hc).read
  obtain ⟨k, ks⟩ := c
  have hlabel : d.label? k = some lc := Document.label?_of_node? hread
  simp only [Function.comp_apply, visitAt, Document.treeAt_node, Document.kind?, Document.labelAt,
    Shape.id, hlabel]
  rfl

/-- The walk replaces the children `cs` of `x` by nodes of the parts `ps`. No node is visited more than
twice, in its own document and as the root of a region. -/
def Reaches (ctx : CompileContext) (root : NodeId) (w : TreeWalker) (x : NodeId) (bs : List NodeId)
    (cs : List Shape) (rs : List NodeId) (ps : List Part) : Prop :=
  ∃ w' ss, Site.parts ss = ps ∧ Walked ctx w w' x bs cs rs ss ∧
    ctx.WalksTo root (cs.map (visitAt w.document x)) (2 * (cs.flatMap Shape.ids).length) w w'

/-- Wherever the tree stands, the walk replaces it by its parts. -/
def Walks (ctx : CompileContext) (t : Tree) : Prop :=
  ∀ seen root w x bs c rs, w.document.Siblings x bs [c] rs → w.document.treeAt c = t →
    (∀ n, n ∈ w.regions.names ↔ n ∈ seen) → root ∉ c.ids →
    ctx.Reaches root w x bs [c] rs (ctx.parts seen t)

def WalksAll (ctx : CompileContext) (ts : List Tree) : Prop :=
  ∀ seen root w x bs cs rs, w.document.Siblings x bs cs rs → cs.map w.document.treeAt = ts →
    (∀ n, n ∈ w.regions.names ↔ n ∈ seen) → root ∉ cs.flatMap Shape.ids →
    ctx.Reaches root w x bs cs rs (ctx.partsAll seen ts)

theorem walksAll_nil : ctx.WalksAll [] := by
  intro seen root w x bs cs rs h hts hseen hroot
  obtain rfl := List.map_eq_nil_iff.mp hts
  exact ⟨w, [], rfl, ⟨.refl h, rfl, rfl, (List.append_nil _).symm, .refl _⟩, .nil _ w⟩

theorem walksAll_cons {t : Tree} {ts : List Tree} (ht : ctx.Walks t) (hts : ctx.WalksAll ts) :
    ctx.WalksAll (t :: ts) := by
  intro seen root w x bs cs rs h heq hseen hroot
  obtain ⟨c, cs, rfl, hc, hcs⟩ := List.map_eq_cons_iff.mp heq
  have hboth : w.document.Siblings x bs ([c] ++ cs) rs := h
  rw [List.flatMap_cons, List.mem_append, not_or] at hroot
  obtain ⟨w₁, ss, hparts, hwalked, hwalks⟩ := ht seen root w x bs c _ hboth.left hc hseen hroot.1
  have hrest := Document.Splices.right hboth hwalked.splices
  have htrees := Document.Splices.treeAt_right hboth hwalked.splices
  have hnext : ∀ n, n ∈ w₁.regions.names ↔ n ∈ seen ++ ctx.regionNames t := by
    intro n
    have hnames : w₁.regions.names = w.regions.names ++ driversAll (Site.parts ss) := by
      rw [Table.names, hwalked.regions, List.map_append, ← names_anchoredAll x ss, List.map_map]
      rfl
    rw [hnames, List.mem_append, List.mem_append, hparts, mem_driversAll_parts, hseen]
    tauto
  obtain ⟨w₂, us, hparts', hwalked', hwalks'⟩ :=
    hts _ root w₁ x _ cs rs hrest (htrees.trans hcs) hnext hroot.2
  refine ⟨w₂, ss ++ us, ?_, hwalked.append hboth hwalked', ?_⟩
  · rw [parts_append, hparts, hparts', partsAll]
  · have hvisits : cs.map (visitAt w₁.document x) = cs.map (visitAt w.document x) := by
      refine List.map_congr_left fun k hk => ?_
      rw [visitAt, visitAt, List.map_inj_left.mp htrees k hk]
    rw [hvisits] at hwalks'
    have hall := hwalks.append hwalks'
    rwa [List.flatMap_singleton, ← Nat.mul_add, ← List.length_append, ← List.flatMap_cons] at hall

/-! ### Texts and comments -/

section Leaves

variable {x : NodeId} {bs rs : List NodeId} {c : Shape} {l : Label} {ts : List Tree}

theorem label?_of_treeAt (h : w.document.Siblings x bs [c] rs)
    (ht : w.document.treeAt c = .node l ts) : w.document.label? c.id = some l :=
  Document.Shows.label? (h.holds c List.mem_cons_self) ht

theorem text?_eq_of_treeAt (h : w.document.Siblings x bs [c] rs)
    (ht : w.document.treeAt c = .node l ts) : w.document.text? c.id = l.content.value? := by
  rw [Document.text?, label?_of_treeAt h ht]
  rfl

theorem reaches_of_visit {w' : TreeWalker} {ss : List Site} {v : Visit}
    (hv : visitAt w.document x c = v)
    (hvisit : ∀ steps, 2 * c.ids.length ≤ steps + 1 →
      ctx.visit (ctx.compileNested steps) root w v = ([], w'))
    (hwalked : Walked ctx w w' x bs [c] rs ss) :
    ctx.Reaches root w x bs [c] rs (Site.parts ss) := by
  refine ⟨w', ss, rfl, hwalked, ?_⟩
  rw [List.map_singleton, List.flatMap_singleton, hv]
  refine (WalksTo.visit (fun steps hsteps => hvisit steps (by omega))
    (.nil (2 * c.ids.length - 1) w')).mono ?_
  obtain ⟨id, cs⟩ := c
  rw [Shape.ids_node, List.length_cons]
  omega

theorem walked_fixed (h : w.document.Siblings x bs [c] rs) {t : Tree} (ht : w.document.treeAt c = t) :
    Walked ctx w w x bs [c] rs [.fixed t c] :=
  ⟨.refl h, by simp [shapesAll, shapes, Site.parts, Site.part, treesAll, trees, ht], rfl,
    (List.append_nil _).symm, .refl _⟩

theorem walked_insertText {next : NodeId} (h : w.document.Siblings x bs [] (next :: rs))
    (hb : next ∉ bs) (value : String) :
    w.document.Splices (w.insertText x next value).1.document x bs [] (next :: rs)
        [.node (w.insertText x next value).2 []] ∧
      (w.insertText x next value).1.document.treeAt (.node (w.insertText x next value).2 []) =
        .leaf (.text value) := by
  obtain ⟨hsplices, hlabel⟩ := Document.splices_insertBefore h hb (.text value)
  refine ⟨hsplices, ?_⟩
  rw [Document.treeAt_node, Document.labelAt]
  exact congrArg (fun o => Tree.node (o.getD (.text "")) []) hlabel

variable (ctx) in
theorem walked_placeSegment {next : NodeId} (h : w.document.Siblings x bs [] (next :: rs))
    (hb : next ∉ bs) (g : Segment) :
    ∃ ss, Site.parts ss = (ctx.segmentPart? g).toList ∧
      Walked ctx w (ctx.placeSegment x next w g) x bs [] (next :: rs) ss := by
  cases g with
  | literal text =>
    obtain ⟨hsplices, htree⟩ := walked_insertText h hb text
    exact ⟨[.fixed (.leaf (.text text)) (.node (w.insertText x next text).2 [])], rfl, hsplices,
      congrArg (fun t => [t]) htree, rfl, (List.append_nil _).symm, .refl _⟩
  | marker i =>
    rw [placeSegment, segmentPart?]
    cases ctx.names[i]? with
    | none => exact ⟨[], rfl, .refl h, rfl, rfl, (List.append_nil _).symm, .refl _⟩
    | some name =>
      obtain ⟨hsplices, htree⟩ := walked_insertText h hb ""
      exact ⟨[.slot (w.insertText x next "").2 name], rfl, hsplices,
        congrArg (fun t => [t]) htree, rfl, (List.append_nil _).symm, .refl _⟩

variable (ctx) in
theorem walked_placeSegments {next : NodeId} {n : Node} (gs : List Segment) (w : TreeWalker)
    (bs : List NodeId) (h : w.document.Siblings x bs [] (next :: rs)) (hb : next ∉ bs) (hx : next ≠ x)
    (hlive : w.document.node? next = some n) :
    ∃ ss, Site.parts ss = gs.filterMap ctx.segmentPart? ∧
      Walked ctx w (gs.foldl (ctx.placeSegment x next) w) x bs [] (next :: rs) ss := by
  induction gs generalizing w bs with
  | nil => exact ⟨[], rfl, .refl h, rfl, rfl, (List.append_nil _).symm, .refl _⟩
  | cons g gs ih =>
    obtain ⟨ss, hparts, hwalked⟩ := walked_placeSegment ctx h hb g
    have hboth : w.document.Siblings x bs ([] ++ []) (next :: rs) := h
    have hrest := Document.Splices.right hboth hwalked.splices
    have hout : next ∉ bs ++ (shapesAll ss).map Shape.id := by
      rw [List.mem_append, not_or]
      refine ⟨hb, fun hmem => ?_⟩
      obtain ⟨c, hc, he⟩ := List.mem_map.mp hmem
      have hnew := hwalked.splices.fresh next
        (List.mem_flatMap.mpr ⟨c, hc, he ▸ c.id_mem_ids⟩)
      rw [hlive] at hnew
      simp at hnew
    have hkept := hwalked.splices.frame next n hx (by simp) hlive
    obtain ⟨us, hparts', hwalked'⟩ := ih _ _ hrest hout hkept
    refine ⟨ss ++ us, ?_, hwalked.append hboth hwalked'⟩
    rw [parts_append, hparts, hparts', List.filterMap_cons]
    cases ctx.segmentPart? g <;> rfl

theorem walks_text {value : String} (hc : l.content = .text value) : ctx.Walks (.node l ts) := by
  intro seen root w x bs c rs h ht hseen hroot
  have htext : w.document.text? c.id = some value := by
    rw [text?_eq_of_treeAt h ht, hc]
    rfl
  have hvisit : visitAt w.document x c = .text x c.id := by
    rw [visitAt, ht, Tree.label, Label.kind, hc]
    rfl
  rw [parts, hc]
  dsimp only
  by_cases hmarkers : hasMarkers value = true
  · rw [if_pos hmarkers]
    have hgap : w.document.Siblings x bs ([] ++ [c]) rs := h
    obtain ⟨n, hlive⟩ := (h.holds c List.mem_cons_self).live c.id c.id_mem_ids
    have hout : ∀ y ∈ x :: (bs ++ rs), c.id ≠ y := fun y hy he =>
      h.outside y hy (by simpa using he ▸ c.id_mem_ids)
    obtain ⟨ss, hparts, hwalked⟩ := walked_placeSegments ctx (segments value) w bs hgap.left
      (fun hb => hout c.id (by simp [hb]) rfl) (hout x List.mem_cons_self) hlive
    have hlast := Document.Splices.right hgap hwalked.splices
    have hgone : Walked ctx ((segments value).foldl (ctx.placeSegment x c.id) w)
        (((segments value).foldl (ctx.placeSegment x c.id) w).remove c.id) x _ [c] rs [] :=
      ⟨Document.splices_remove hlast, rfl, rfl, (List.append_nil _).symm, .refl _⟩
    have hall := hwalked.append hgap hgone
    rw [List.append_nil] at hall
    rw [← hparts]
    refine reaches_of_visit hvisit (fun steps _ => ?_) hall
    rw [visit, splitText, htext]
    dsimp only
    rw [if_pos hmarkers]
  · rw [if_neg hmarkers]
    refine reaches_of_visit hvisit (fun steps _ => ?_) (walked_fixed h ht)
    rw [visit, splitText, htext]
    dsimp only
    rw [if_neg hmarkers]

theorem walks_comment {value : String} (hc : l.content = .comment value) : ctx.Walks (.node l ts) := by
  intro seen root w x bs c rs h ht hseen hroot
  have htext : w.document.text? c.id = some value := by
    rw [text?_eq_of_treeAt h ht, hc]
    rfl
  have hvisit : visitAt w.document x c = .comment c.id := by
    rw [visitAt, ht, Tree.label, Label.kind, hc]
    rfl
  rw [parts, hc]
  dsimp only
  rw [commentLabel]
  by_cases hmarkers : hasMarkers value = true
  · rw [if_pos hmarkers]
    have hrelabel := Document.relabels_modifyLabel
      (fun l => { l with content := l.content.withValue (restore ctx.names value) })
      (label?_of_treeAt h ht)
    rw [hc] at hrelabel
    have hout : x ∉ [c].flatMap Shape.ids := h.outside x List.mem_cons_self
    have hid : c.id ∈ [c].flatMap Shape.ids := by simpa using c.id_mem_ids
    have htree := hrelabel.treeAt (h.holds c List.mem_cons_self) (by simpa using h.nodup) ht
    have hwalked : Walked ctx w
        { w with document := (w.document.setText c.id (restore ctx.names value)).1 } x bs [c] rs
        [.fixed (.node { l with content := .comment (restore ctx.names value) } ts) c] := by
      refine ⟨?_, ?_, rfl, (List.append_nil _).symm, .refl _⟩
      · rw [Document.setText, htext]
        exact .of_relabel hout hid hrelabel (.refl (h.relabel hrelabel))
      · rw [Document.setText, htext]
        exact congrArg (fun t => [t]) htree
    refine reaches_of_visit hvisit (fun steps _ => ?_) hwalked
    rw [visit, restoreComment, htext]
    dsimp only
    rw [if_pos hmarkers]
  · rw [if_neg hmarkers]
    refine reaches_of_visit hvisit (fun steps _ => ?_) (walked_fixed h ht)
    rw [visit, restoreComment, htext]
    dsimp only
    rw [if_neg hmarkers]

end Leaves

section Elements

variable {x id : NodeId} {bs rs : List NodeId} {ks : List Shape} {l : Label} {ts : List Tree}

theorem walked_element {w' : TreeWalker} {ss : List Site}
    (h : w.document.Siblings x bs [.node id ks] rs)
    (hopen : w.Relabels w₁ id (ctx.elementLabel l).blanked
      (attributePlaces ctx id (ctx.elementLabel l).attributes.entries))
    (hlive : w.document.contains id = true) (hwalked : Walked ctx w₁ w' id [] ks [] ss) :
    Walked ctx w w' x bs [.node id ks] rs [.element id (ctx.elementLabel l) ss] where
  splices := by
    have hout : x ∉ [Shape.node id ks].flatMap Shape.ids := h.outside x List.mem_cons_self
    have hid : id ∈ [Shape.node id ks].flatMap Shape.ids := by simp [Shape.ids_node]
    exact .of_relabel hout hid hopen.document
      (.outward (h.relabel hopen.document) hwalked.splices)
  trees := by
    have hlabel : w'.document.label? id = some (ctx.elementLabel l).blanked := by
      rw [← hopen.document.label? hlive, Document.label?, Document.label?, hwalked.splices.parent,
        Option.map_map]
      rfl
    have htree : w'.document.treeAt (.node id (shapesAll ss)) =
        .node (ctx.elementLabel l).blanked (treesAll (Site.parts ss)) := by
      rw [Document.treeAt_node, Document.labelAt, hlabel, hwalked.trees]
      rfl
    exact congrArg (fun t => [t]) htree
  bindings := by
    rw [hwalked.bindings, hopen.bindings, ← Bindings.bindAll_append]
    simp [marksAll, marks, places, markPlaces]
  regions := by
    rw [hwalked.regions, hopen.regions]
    simp [anchoredAll, anchored]
  log := hopen.log.trans hwalked.log

theorem WalksAll.opens (hall : ctx.WalksAll ts) (h : w.document.Siblings id [] ks [])
    (hl : w.document.label? id = some l) (ht : ks.map w.document.treeAt = ts)
    (hmark : (ctx.takeMark root id w).1 = none) {seen : List String}
    (hseen : ∀ n, n ∈ w.regions.names ↔ n ∈ seen) (hroot : root ∉ ks.flatMap Shape.ids) :
    ∃ w₁ w' ss, Site.parts ss = ctx.partsAll seen ts ∧
      w.Relabels w₁ id (ctx.elementLabel l).blanked
        (attributePlaces ctx id (ctx.elementLabel l).attributes.entries) ∧
      Walked ctx w₁ w' id [] ks [] ss ∧
      ctx.WalksTo root [.element id] (2 * (ks.flatMap Shape.ids).length + 1) w w' := by
  have hopen := ctx.open_relabels root hl
  rcases htake : ctx.takeMark root id w with ⟨m, w₀⟩
  rw [htake] at hmark hopen
  obtain rfl : m = none := hmark
  have hinside := h.relabel hopen.document
  have hkept : ks.map (ctx.bindAttributes id (ctx.restoreAttributeNames id w₀)).document.treeAt =
      ts := by
    rw [← ht]
    refine List.map_congr_left fun k hk => Document.treeAt_frame fun y hy => ?_
    exact hopen.document.node_of_ne fun e =>
      h.outside id List.mem_cons_self (e ▸ List.mem_flatMap.mpr ⟨k, hk, hy⟩)
  obtain ⟨w', ss, hparts, hwalked, hwalks⟩ := hall seen root _ id [] ks [] hinside hkept
    (by rw [hopen.regions]; exact hseen) hroot
  refine ⟨_, w', ss, hparts, hopen, hwalked, WalksTo.visit (fun steps _ => ?_) hwalks⟩
  rw [visit, htake, ← visits_eq hinside]

theorem WalksAll.plain (hall : ctx.WalksAll ts) {name : String} (hc : l.content = .element name)
    (hm : ctx.mark? l = none) : ctx.Walks (.node l ts) := by
  intro seen root w x bs c rs h ht hseen hroot
  obtain ⟨id, ks⟩ := c
  have hl : w.document.label? id = some l := label?_of_treeAt h ht
  have hlive : w.document.contains id = true := (h.holds _ List.mem_cons_self).contains
  have hne : id ≠ root := fun e => hroot (e ▸ Shape.id_mem_ids _)
  have hmark := (ctx.takeMark_relabels root hl).1
  rw [if_neg hne, hm] at hmark
  have hvisit : visitAt w.document x (.node id ks) = .element id := by
    rw [visitAt, ht, Tree.label, Label.kind, hc]
    rfl
  rw [Document.treeAt_node, Tree.node.injEq] at ht
  rw [Shape.ids_node, List.mem_cons, not_or] at hroot
  obtain ⟨w₁, w', ss, hparts, hopen, hwalked, hwalks⟩ :=
    hall.opens h.inside hl ht.2 hmark hseen hroot.2
  refine ⟨w', [.element id (ctx.elementLabel l) ss], ?_, walked_element h hopen hlive hwalked, ?_⟩
  · rw [parts, hc]
    dsimp only
    rw [hm, Site.parts, Site.part, hparts]
    rfl
  · rw [List.map_singleton, hvisit, List.flatMap_singleton, Shape.ids_node, List.length_cons]
    exact hwalks.mono (by omega)

/-- Wherever a tree stands as a whole, the walk comes to the view of its parts. -/
theorem WalksAll.finished (hall : ctx.WalksAll ts) {d : Document} {s : Shape}
    (hd : d.HoldsTree s (.node l ts)) (names : List String) (log : Log) :
    ∃ w' ss, Site.parts ss = ctx.partsAll [] ts ∧
      Finished ctx w' s.id names (ctx.elementLabel l) ss ∧ LogsTo log w'.log ∧
      ∀ steps, 2 * s.ids.length ≤ steps + 1 →
        ctx.walk steps s.id [.element s.id] (.start d names log) = w' := by
  obtain ⟨htidy, hs, hn, ht⟩ := hd
  obtain ⟨root, ks⟩ := s
  rw [Shape.id]
  have hl : d.label? root = some l := Document.Shows.label? hs ht
  have hmark := (ctx.takeMark_relabels (w := .start d names log) root hl).1
  rw [if_pos rfl] at hmark
  rw [Document.treeAt_node, Tree.node.injEq] at ht
  rw [Shape.ids_node, List.nodup_cons] at hn
  obtain ⟨lr, hread⟩ := hs.read
  rw [Shape.id] at hread
  have hsiblings : d.Siblings root [] ks [] :=
    ⟨htidy, ⟨lr, none, by simpa [Shape.children] using hread⟩, fun c hc => hs.child hc, hn.2,
      by simpa using hn.1⟩
  have hseen : ∀ n, n ∈ (TreeWalker.start d names log).regions.names ↔ n ∈ ([] : List String) := by
    simp [TreeWalker.start, Table.names, Table.empty]
  obtain ⟨w₁, w', ss, hparts, hopen, hwalked, hwalks⟩ :=
    hall.opens (w := .start d names log) hsiblings hl ht.2 hmark hseen hn.1
  have hroot : w'.document.node? root =
      some ⟨(ctx.elementLabel l).blanked, none, (shapesAll ss).map Shape.id⟩ := by
    rw [hwalked.splices.parent, hopen.document.node, if_pos rfl, TreeWalker.start, hread]
    simp
  refine ⟨w', ss, hparts, ⟨⟨.node hroot hwalked.splices.holds, ?_, Document.label?_of_node? hroot,
    hwalked.trees⟩, ?_, ?_⟩, hopen.log.trans hwalked.log, fun steps hsteps => ?_⟩
  · rw [Shape.ids_node, List.nodup_cons]
    exact ⟨Document.Splices.parent_not_mem (hsiblings.relabel hopen.document) hwalked.splices,
      hwalked.splices.nodup⟩
  · rw [hwalked.bindings, hopen.bindings, ← Bindings.bindAll_append]
    rfl
  · rw [hwalked.regions, hopen.regions]
    rfl
  · rw [Shape.ids_node, List.length_cons] at hsteps
    obtain ⟨left, -, hend⟩ := hwalks steps [] (by omega)
    rwa [List.append_nil, walk_nil] at hend

/-- The blueprint of a tree is the view of its parts, whatever document it stands in. -/
theorem WalksAll.compileTree (hall : ctx.WalksAll ts) {d : Document} {s : Shape}
    (hd : d.HoldsTree s (.node l ts)) (hsound : SoundView (ctx.elementLabel l) (ctx.partsAll [] ts))
    (names : List String) (targetClass : String) (log : Log) :
    ∃ log', LogsTo log log' ∧ ∀ steps, 2 * s.ids.length ≤ steps + 1 →
      ctx.compileTree steps d s.id names targetClass log =
        (ctx.viewWith names targetClass (ctx.elementLabel l) (ctx.partsAll [] ts), log') := by
  obtain ⟨w', ss, hparts, hfinished, hlog, hwalk⟩ := hall.finished hd names log
  rw [← hparts] at hsound ⊢
  refine ⟨w'.log, hlog, fun steps hsteps => ?_⟩
  rw [CompileContext.compileTree, hwalk steps hsteps]
  exact hfinished.blueprint_eq hsound targetClass

theorem walked_excised {c : Shape} {w' : TreeWalker} {ss : List Site} {l' : Label}
    (h : w.document.Siblings x bs [c] rs) (hr : w.Relabels w₁ c.id l' [])
    (hdocument : w'.document = w₁.document.remove c.id) (hbindings : w'.bindings = w₁.bindings)
    (hregions : w'.regions.entries = w₁.regions.entries ++ (anchoredAll x ss).map (foundAnchor ctx))
    (hlog : LogsTo w₁.log w'.log) (hshapes : shapesAll ss = []) (htrees : treesAll (Site.parts ss) = [])
    (hmarks : marksAll ss = []) : Walked ctx w w' x bs [c] rs ss where
  splices := by
    have hout : x ∉ [c].flatMap Shape.ids := h.outside x List.mem_cons_self
    have hid : c.id ∈ [c].flatMap Shape.ids := by simpa using c.id_mem_ids
    rw [hshapes, hdocument]
    exact .of_relabel hout hid hr.document (Document.splices_remove (h.relabel hr.document))
  trees := by
    rw [hshapes, htrees]
    rfl
  bindings := by
    rw [hmarks, hbindings]
    exact hr.bindings
  regions := by rw [hregions, hr.regions]
  log := hr.log.trans hlog

theorem reaches_of_exciseRegion {c : Shape} {w' : TreeWalker} {ss : List Site} {name : String}
    (hvisit : visitAt w.document x c = .element c.id)
    (htake : ctx.takeMark root c.id w = (some name, w₁))
    (hexcise : ∀ steps, 2 * c.ids.length ≤ steps + 1 →
      exciseRegion (ctx.compileNested steps) c.id name w₁ = w')
    (hwalked : Walked ctx w w' x bs [c] rs ss) : ctx.Reaches root w x bs [c] rs (Site.parts ss) := by
  refine reaches_of_visit hvisit (fun steps hsteps => ?_) hwalked
  rw [visit, htake]
  exact congrArg (Prod.mk []) (hexcise steps hsteps)

theorem exciseRegion_of_contains {compile : Document → NodeId → Log → Blueprint × Log} {name : String}
    (hparent : w.document.parent? id = some x) (hs : w.regions.contains name = true) :
    exciseRegion compile id name w =
      (w.say (.warn "duplicate iteration region ignored" [("property", name)])).remove id := by
  rw [exciseRegion, hparent]
  dsimp only
  rw [if_pos hs]

theorem exciseRegion_of_importFrom {compile : Document → NodeId → Log → Blueprint × Log}
    {name : String} {inner : Document} {copy : NodeId} {view : Blueprint} {log : Log}
    (hparent : w.document.parent? id = some x) (hs : ¬w.regions.contains name = true)
    (himport : Document.empty.importFrom w.document id = (inner, some copy))
    (hcompile : compile inner copy w.log = (view, log)) :
    exciseRegion compile id name w =
      TreeWalker.say ⟨w.document.remove id, w.names, w.pending, w.regions.put name (x, view), log⟩
        (.debug "compiled iteration region" [("property", name),
          ("properties", toString view.properties.entries.length)]) := by
  rw [exciseRegion, hparent]
  dsimp only
  rw [if_neg hs, himport]
  dsimp only
  rw [TreeWalker.remove, hcompile]

/-- A region is taken out and compiled, unless there is one of that name. -/
theorem WalksAll.region (hall : ctx.WalksAll ts) {tag name : String} (hc : l.content = .element tag)
    (hlabels : (Tree.node l ts).EveryLabel ctx.NamesApart) (hm : ctx.mark? l = some name) :
    ctx.Walks (.node l ts) := by
  intro seen root w x bs c rs h ht hseen hroot
  have hl := label?_of_treeAt h ht
  have hne : c.id ≠ root := fun e => hroot (e ▸ c.id_mem_ids)
  have hvisit : visitAt w.document x c = .element c.id := by
    rw [visitAt, ht, Tree.label, Label.kind, hc]
    rfl
  obtain ⟨hmark, hrelabel⟩ := ctx.takeMark_relabels root hl
  rw [if_neg hne, hm] at hmark
  rcases htake : ctx.takeMark root c.id w with ⟨m, w₁⟩
  rw [htake] at hmark hrelabel
  obtain rfl : m = some name := hmark
  dsimp only at hrelabel
  have hheld := (h.relabel hrelabel.document).holds c List.mem_cons_self
  have hparent : w₁.document.parent? c.id = some x := by
    obtain ⟨lc, hread⟩ := hheld.read
    exact Document.parent?_of_node? hread
  have hcontains : w₁.regions.contains name = seen.contains name := by
    rw [Bool.eq_iff_iff, Table.contains_iff, hrelabel.regions, hseen, List.contains_iff_mem]
  rw [parts, hc]
  dsimp only
  rw [hm]
  dsimp only
  by_cases hs : seen.contains name = true
  · rw [if_pos hs]
    show ctx.Reaches root w x bs [c] rs (Site.parts [])
    exact reaches_of_exciseRegion hvisit htake
      (fun _ _ => exciseRegion_of_contains hparent (hcontains.trans hs))
      (walked_excised h hrelabel rfl rfl (List.append_nil _).symm
        (.say _ (by simp [compileMessages, Event.warn])) rfl rfl rfl)
  · rw [if_neg hs]
    have hn : c.ids.Nodup := by simpa using h.nodup
    obtain ⟨inner, s, himport, hcopy, hsize⟩ := hheld.exists_importFrom hn
    rw [hrelabel.document.treeAt (h.holds c List.mem_cons_self) hn ht] at hcopy
    have hlabel : ctx.elementLabel (ctx.unmarked l) = ctx.elementLabel l := by
      cases hlabels with
      | node label _ => exact ctx.elementLabel_unmarked (label.of_map _)
    have hsound : SoundView (ctx.elementLabel l) (ctx.partsAll [] ts) :=
      soundView_of_everyLabel (by rw [hc]; rfl) hlabels
    obtain ⟨log, hlog, hcompile⟩ := hall.compileTree hcopy (by rwa [hlabel]) []
      ctx.config.defaultClass w₁.log
    rw [hlabel] at hcompile
    have hnew : ¬w₁.regions.contains name = true := hcontains ▸ hs
    show ctx.Reaches root w x bs [c] rs
      (Site.parts [.region name (ctx.elementLabel l) (ctx.partsAll [] ts)])
    refine reaches_of_exciseRegion hvisit htake
      (fun steps hsteps => exciseRegion_of_importFrom hparent hnew himport (hcompile steps (by omega)))
      (walked_excised h hrelabel rfl rfl ?_
        (hlog.trans (.say _ (by simp [compileMessages, Event.debug]))) rfl rfl rfl)
    exact congrArg Table.entries
      (Table.put_of_not_mem _ fun hmem => hnew (Table.contains_iff.mpr hmem))

end Elements

/-! ### Whole trees -/

mutual

theorem walks : ∀ t : Tree, t.EveryLabel ctx.NamesApart → ctx.Walks t
  | .node l ts, h => by
    cases hc : l.content with
    | text value => exact walks_text hc
    | comment value => exact walks_comment hc
    | element tag =>
      have hall : ctx.WalksAll ts := by
        cases h with
        | node _ below => exact walksAll ts below
      cases hm : ctx.mark? l with
      | none => exact hall.plain hc hm
      | some name => exact hall.region hc h hm

theorem walksAll : ∀ ts : List Tree, (∀ t ∈ ts, t.EveryLabel ctx.NamesApart) → ctx.WalksAll ts
  | [], _ => walksAll_nil
  | t :: ts, h => walksAll_cons (walks t (h t List.mem_cons_self))
      (walksAll ts fun u hu => h u (List.mem_cons_of_mem _ hu))

end

end CompileContext

end LiveMarkup
