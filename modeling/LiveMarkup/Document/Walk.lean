import LiveMarkup.Document.Basic
import LiveMarkup.Markup.Writer

/-!
# Going through a document

A walk keeps the handles still to be visited and goes on with those that `next` gives for the one
it visits. In a document whose links form a forest no walk visits more nodes than there are slots,
so the number of slots bounds every walk.
-/

namespace LiveMarkup

namespace Document

/-- The handles visited, in order, in at most so many steps. -/
def walk (next : NodeId → List NodeId) : Nat → List NodeId → List NodeId
  | 0, _ => []
  | _, [] => []
  | steps + 1, id :: rest => id :: walk next steps (next id ++ rest)

/-- The node and all nodes below it, in document order. -/
def descendants (d : Document) (id : NodeId) : List NodeId :=
  if d.contains id then walk d.children d.slots.size [id] else []

/-- The node and all nodes below it in the order in which their slots are freed: each node before
those below it, and its last child first. -/
def freeingOrder (d : Document) (id : NodeId) : List NodeId :=
  walk (fun i => (d.children i).reverse) d.slots.size [id]

def remove (d : Document) (id : NodeId) : Document :=
  if d.contains id then
    let d := d.detach id
    (d.freeingOrder id).foldl release d
  else d

/-- The tree below a handle, as deep as `depth` goes. -/
def treeWithin (d : Document) : Nat → NodeId → Option Tree
  | 0, _ => none
  | depth + 1, id =>
    (d.node? id).map fun n => .node n.label (n.children.filterMap (d.treeWithin depth))

def tree? (d : Document) (id : NodeId) : Option Tree := d.treeWithin d.slots.size id

def textContent (d : Document) (id : NodeId) : String :=
  String.join ((d.descendants id).filterMap fun i =>
    (d.label? i).bind fun l => if l.content.isText then l.content.value? else none)

def render (d : Document) (id : NodeId) : String := ((d.tree? id).map Tree.render).getD ""

mutual

/-- A copy of the tree, each node before those below it. The last child of `parent` is its root
if there is a parent. -/
def graftBelow (parent : Option NodeId) : Tree → Document → Document × NodeId
  | .node l ts, d =>
    let (d, id) := d.alloc ⟨l, parent, []⟩
    let d :=
      match parent with
      | some p => d.modify p fun n => { n with children := n.children ++ [id] }
      | none => d
    (graftAllBelow id ts d, id)

def graftAllBelow (parent : NodeId) : List Tree → Document → Document
  | [], d => d
  | t :: ts, d => graftAllBelow parent ts (graftBelow (some parent) t d).1

end

def graft (d : Document) (t : Tree) : Document × NodeId := graftBelow none t d

def graftAll (d : Document) : List Tree → Document × List NodeId
  | [] => (d, [])
  | t :: ts =>
    let (d, id) := d.graft t
    let (d, ids) := d.graftAll ts
    (d, id :: ids)

/-- The document of nothing but these trees. -/
def ofTrees (ts : List Tree) : Document × List NodeId := empty.graftAll ts

/-- A copy of a node of another document with all nodes below it. -/
def importFrom (d source : Document) (root : NodeId) : Document × Option NodeId :=
  match source.tree? root with
  | some t =>
    let (d, id) := d.graft t
    (d, some id)
  | none => (d, none)

def clone (d : Document) (root : NodeId) : Document × Option NodeId := d.importFrom d root

/-- The live nodes without a parent, by handle. -/
def roots (d : Document) : List NodeId :=
  (List.range d.slots.size).filter fun id =>
    match d.node? id with
    | some n => n.parent.isNone
    | none => false

end Document

end LiveMarkup
