import LiveMarkup.Blueprint.Basic
import LiveMarkup.Document.Walk
import LiveMarkup.Error
import LiveMarkup.Event
import LiveMarkup.Markup.Parser
import LiveMarkup.Placeholder.Scan
import LiveMarkup.Template.Config

/-!
# From a template to its blueprint

The placeholders of the text are written as markers, the text is parsed, and a walk with a stack of
visits reshapes the tree: each marker in a text becomes an empty text node of its own, each attribute
with markers becomes empty, and each repeated region is taken out and compiled on its own. Places are
remembered by handle, and become paths only when the walk is over, so that no later edit can make a
path wrong. No node is visited more than twice, which bounds the steps.
-/

namespace LiveMarkup

/-- What the compiler knows throughout: the options, and the names that markers number. -/
structure CompileContext where
  config : Config
  names : List String

/-- A property by its number, with a place that is to show it. -/
structure PendingBinding where
  property : Nat
  target : Place
  expression : Expression

/-- The tree that is reshaped, and what has been found in it. A region is kept by the handle of its
anchor. -/
structure TreeWalker where
  document : Document
  names : List String
  pending : List PendingBinding
  regions : Table (NodeId × Blueprint)
  log : Log

/-- What is still to be visited. -/
inductive Visit where
  | element (id : NodeId)
  | text (parent node : NodeId)
  | comment (id : NodeId)

namespace Visit

def ofKind (parent id : NodeId) : NodeKind → Visit
  | .element => .element id
  | .text => .text parent id
  | .comment => .comment id

end Visit

namespace Document

def visits (d : Document) (parent : NodeId) : List Visit :=
  (d.children parent).filterMap fun id => (d.kind? id).map (Visit.ofKind parent id)

/-- A new element around the nodes. -/
def wrap (d : Document) (ids : List NodeId) : Document × NodeId :=
  let (d, wrapper) := d.create (.element "div")
  (ids.foldl (fun d id => d.append wrapper id) d, wrapper)

/-- The only root if it is an element, and an element around all roots if not. -/
def skeletonRoot (d : Document) (roots : List NodeId) : Document × NodeId :=
  match roots with
  | [id] => if d.kind? id = some .element then (d, id) else d.wrap roots
  | _ => d.wrap roots

end Document

namespace TreeWalker

def start (d : Document) (names : List String) (log : Log) : TreeWalker := ⟨d, names, [], .empty, log⟩

def say (w : TreeWalker) (e : Event) : TreeWalker := { w with log := w.log ++ [e] }

def bind (w : TreeWalker) (name : String) (target : Place) (e : Expression) : TreeWalker :=
  let (property, names) := indexIn w.names name
  { w with names, pending := w.pending ++ [⟨property, target, e⟩] }

/-- A new text before the child `next` of `parent`. -/
def insertText (w : TreeWalker) (parent next : NodeId) (value : String) : TreeWalker × NodeId :=
  let (d, id) := w.document.create (.text value)
  ({ w with document := d.insertBefore parent id (some next) }, id)

def remove (w : TreeWalker) (id : NodeId) : TreeWalker := { w with document := w.document.remove id }

/-- The binding goes to the locations of its property, unless its target is no longer below `root`. -/
def encodeBinding (w : TreeWalker) (root : NodeId) (r : List (List BindingRecord) × Log)
    (p : PendingBinding) : List (List BindingRecord) × Log :=
  match w.document.encode? root p.target with
  | some path => (r.1.modify p.property (· ++ [⟨path, p.expression⟩]), r.2)
  | none =>
    (r.1, r.2 ++ [.warn "bound location left the skeleton during compilation"
      [("property", w.names.getD p.property "")]])

/-- A region whose anchor is no longer below `root` is none. -/
def encodeRegion? (w : TreeWalker) (root : NodeId) (g : String × NodeId × Blueprint) :
    Option (String × Region Blueprint) :=
  (w.document.encode? root (.node g.2.1)).map fun anchor => (g.1, ⟨anchor, g.2.2⟩)

/-- Paths are taken when the tree has its final shape. -/
def blueprint (w : TreeWalker) (root : NodeId) (targetClass : String) : Blueprint × Log :=
  let (located, log) :=
    w.pending.foldl (w.encodeBinding root) (List.replicate w.names.length [], w.log)
  (⟨(w.document.tree? root).getD (.leaf (.text "")), ⟨w.names.zip located⟩,
    ⟨w.regions.entries.filterMap (w.encodeRegion? root)⟩, targetClass⟩, log)

end TreeWalker

namespace CompileContext

/-- The names that the markers of a text stand for, each marker once. -/
def namesIn (ctx : CompileContext) (text : String) : List String :=
  (markerIndices text).filterMap fun i => ctx.names[i]?

/-- The property that the value of a region's mark names: a plain name or one marker. -/
def regionName? (ctx : CompileContext) (value : String) : Option String :=
  let value := trimBlank value
  match segments value with
  | [.marker i] => ctx.names[i]?
  | _ => if value.isEmpty || hasMarkers value then none else some value

/-- The element without its mark, and the property that it is a region of. The root is no region. -/
def takeMark (ctx : CompileContext) (root id : NodeId) (w : TreeWalker) : Option String × TreeWalker :=
  match w.document.removeAttribute id ctx.config.iterationAttribute with
  | (_, none) => (none, w)
  | (d, some value) =>
    let w := { w with document := d }
    if id = root then
      (none, w.say (.warn "iteration marker on the template root is ignored"
        [("attribute", ctx.config.iterationAttribute)]))
    else
      match ctx.regionName? value with
      | some name => (some name, w)
      | none =>
        (none, w.say (.warn "iteration marker does not name a property" [("value", value)]))

def restoreAttributeName (id : NodeId) (w : TreeWalker) (a : Nat × String) : TreeWalker :=
  let w := w.say (.warn "placeholder in attribute name position is not bound" [("attribute", a.2)])
  { w with document := (w.document.renameAttributeAt id a.1 a.2).1 }

/-- A marker cannot stand for the name of an attribute. Its placeholder is put back. -/
def restoreAttributeNames (ctx : CompileContext) (id : NodeId) (w : TreeWalker) : TreeWalker :=
  let misplaced := (w.document.attributes id).entries.zipIdx.filterMap fun a =>
    if hasMarkers a.1.1 then some (a.2, restore ctx.names a.1.1) else none
  misplaced.foldl (restoreAttributeName id) w

def bindAttribute (ctx : CompileContext) (id : NodeId) (w : TreeWalker) (a : Nat × String) :
    TreeWalker :=
  let w := (ctx.namesIn a.2).foldl
    (fun w name => w.bind name (.attribute id a.1) (.ofText ctx.names a.2)) w
  { w with document := (w.document.setAttributeAt id a.1 "").1 }

/-- An attribute with markers is bound once to each of their names and becomes empty. -/
def bindAttributes (ctx : CompileContext) (id : NodeId) (w : TreeWalker) : TreeWalker :=
  let bound := (w.document.attributes id).entries.zipIdx.filterMap fun a =>
    if hasMarkers a.1.2 then some (a.2, a.1.2) else none
  bound.foldl (ctx.bindAttribute id) w

def placeSegment (ctx : CompileContext) (parent node : NodeId) (w : TreeWalker) : Segment → TreeWalker
  | .literal text => (w.insertText parent node text).1
  | .marker i =>
    match ctx.names[i]? with
    | none => w
    | some name =>
      let (w, slot) := w.insertText parent node ""
      w.bind name (.node slot) .wholeText

/-- A text with markers becomes one text for each literal run and an empty one for each marker. -/
def splitText (ctx : CompileContext) (parent node : NodeId) (w : TreeWalker) : TreeWalker :=
  match w.document.text? node with
  | none => w
  | some text =>
    if hasMarkers text then
      ((segments text).foldl (ctx.placeSegment parent node) w).remove node
    else w

def restoreComment (ctx : CompileContext) (id : NodeId) (w : TreeWalker) : TreeWalker :=
  match w.document.text? id with
  | none => w
  | some text =>
    if hasMarkers text then
      { w with document := (w.document.setText id (restore ctx.names text)).1 }
    else w

/-- The element is taken out and compiled on its own, unless there is a region of that name. -/
def exciseRegion (compile : Document → NodeId → Log → Blueprint × Log) (id : NodeId) (name : String)
    (w : TreeWalker) : TreeWalker :=
  match w.document.parent? id with
  | none => w
  | some anchor =>
    if w.regions.contains name then
      (w.say (.warn "duplicate iteration region ignored" [("property", name)])).remove id
    else
      match Document.empty.importFrom w.document id with
      | (_, none) => w
      | (inner, some root) =>
        let w := w.remove id
        let (view, log) := compile inner root w.log
        let w := { w with regions := w.regions.put name (anchor, view), log }
        w.say (.debug "compiled iteration region"
          [("property", name), ("properties", toString view.properties.entries.length)])

/-- What one visit leads to: more visits, before all others that are pending. -/
def visit (ctx : CompileContext) (compile : Document → NodeId → Log → Blueprint × Log) (root : NodeId)
    (w : TreeWalker) : Visit → List Visit × TreeWalker
  | .element id =>
    match ctx.takeMark root id w with
    | (some name, w) => ([], exciseRegion compile id name w)
    | (none, w) =>
      let w := ctx.bindAttributes id (ctx.restoreAttributeNames id w)
      (w.document.visits id, w)
  | .text parent node => ([], ctx.splitText parent node w)
  | .comment id => ([], ctx.restoreComment id w)

/-- The visits that are pending, the next one first, in at most so many steps. -/
def walk (ctx : CompileContext) : Nat → NodeId → List Visit → TreeWalker → TreeWalker
  | 0, _, _, w => w
  | _, _, [], w => w
  | steps + 1, root, v :: todo, w =>
    let compile := fun d r log =>
      (ctx.walk steps r [.element r] (.start d [] log)).blueprint r ctx.config.defaultClass
    let (next, w) := ctx.visit compile root w v
    ctx.walk steps root (next ++ todo) w

/-- The blueprint of the tree at `root`. It has the properties `names`, bound or not, and those that
are found. -/
def compileTree (ctx : CompileContext) (steps : Nat) (d : Document) (root : NodeId)
    (names : List String) (targetClass : String) (log : Log) : Blueprint × Log :=
  (ctx.walk steps root [.element root] (.start d names log)).blueprint root targetClass

end CompileContext

def Parsed.skeleton (p : Parsed) : Document × NodeId := p.document.skeletonRoot p.rootNodes

namespace Blueprint

/-- The events of a template that could not be parsed. -/
def parseFailureLog (text : String) (parsed : Parsed) : Log :=
  parsed.errors.map (fun e => .error (e.contextual parsed.source) [("url", parsed.source.url)]) ++
    [.error "template markup could not be parsed"
      [("url", parsed.source.url), ("source", text)]]

/-- The blueprint of a template text. Its instances are of the class, or of the configured one. -/
def compile (config : Config) (text : String) (targetClass : Option String) :
    Except EngineError Blueprint × Log :=
  match firstMarker? text with
  | some marker =>
    let e := EngineError.reservedMarker config.sourceUrl marker
    (.error e, [.error e.message [("url", config.sourceUrl)]])
  | none =>
    let (rewritten, names) := scan text
    let parsed := parse rewritten config.sourceUrl config.preserveWhitespace
    if parsed.errors.isEmpty then
      let (d, root) := parsed.skeleton
      let (b, log) := CompileContext.compileTree ⟨config, names⟩ (2 * d.slots.size) d root names
        (targetClass.getD config.defaultClass) []
      (.ok b, log ++ [.debug "compiled shadow view"
        [("url", config.sourceUrl), ("properties", toString b.properties.entries.length),
          ("regions", toString b.regions.entries.length)]])
    else (.error (.templateParse parsed.source parsed.errors), parseFailureLog text parsed)

end Blueprint

end LiveMarkup
