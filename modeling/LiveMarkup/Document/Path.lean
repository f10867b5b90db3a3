import LiveMarkup.Document.Basic

/-!
# Structural paths

A path says where a node or an attribute is below a root: each step counts the earlier siblings
of the same kind and name. Copies keep kinds, names and order, so a path found in one tree leads
to the same place in every copy of it.
-/

namespace LiveMarkup

inductive Frame where
  /-- The child of that kind and name that has `ordinal` such siblings before it. -/
  | child (kind : NodeKind) (name : String) (ordinal : Nat)
  /-- The attribute of that name, which only a last step can select. -/
  | attribute (name : String)
deriving DecidableEq

structure Path where
  frames : List Frame
deriving DecidableEq

namespace Path

def root : Path := ⟨[]⟩

def extend (p : Path) (f : Frame) : Path := ⟨p.frames ++ [f]⟩

def isAttribute (p : Path) : Bool :=
  match p.frames.getLast? with
  | some (.attribute _) => true
  | _ => false

def frameText : Frame → String
  | .child _ name ordinal => "/" ++ name ++ "[" ++ toString ordinal ++ "]"
  | .attribute name => "/@" ++ name

def display (p : Path) : String :=
  if p.frames.isEmpty then "/" else String.join (p.frames.map frameText)

end Path

/-- A place that text can be written to. -/
inductive Place where
  | node (id : NodeId)
  | attribute (owner : NodeId) (index : Nat)
deriving DecidableEq

namespace Document

/-- The step from a parent to one of its children. -/
def frameOf (d : Document) (parent id : NodeId) (l : Label) : Frame :=
  .child l.kind l.name (((d.children parent).takeWhile (· != id)).countP fun sibling =>
    ((d.label? sibling).map (Label.sameStep l.kind l.name)).getD false)

/-- The frames from `root` down to a node, in front of `frames`, in at most so many steps. -/
def framesTo? (d : Document) (root : NodeId) : Nat → NodeId → List Frame → Option (List Frame)
  | 0, _, _ => none
  | steps + 1, id, frames =>
    if id = root then some frames
    else
      match d.node? id with
      | some ⟨l, some parent, _⟩ =>
        d.framesTo? root steps parent (d.frameOf parent id l :: frames)
      | _ => none

/-- The path from `root` to a place, if the place is below it. -/
def encode? (d : Document) (root : NodeId) (place : Place) : Option Path :=
  let start : Option (NodeId × List Frame) :=
    match place with
    | .node id => some (id, [])
    | .attribute owner index =>
      ((d.attributes owner).entries[index]?).map fun a => (owner, [.attribute a.1])
  match start with
  | none => none
  | some (id, frames) =>
    if d.contains root then (d.framesTo? root (d.slots.size + 1) id frames).map Path.mk else none

/-- The child that a step leads to. -/
def childAt? (d : Document) (id : NodeId) (kind : NodeKind) (name : String) (ordinal : Nat) :
    Option NodeId :=
  ((d.children id).filter fun child =>
    ((d.label? child).map (Label.sameStep kind name)).getD false)[ordinal]?

def follow? (d : Document) (id : NodeId) : List Frame → Option Place
  | [] => some (.node id)
  | .attribute name :: rest =>
    if rest.isEmpty then
      ((d.attributes id).entries.findIdx? fun a => a.1 == name).map (Place.attribute id)
    else none
  | .child kind name ordinal :: rest =>
    (d.childAt? id kind name ordinal).bind fun child => d.follow? child rest

def decode? (d : Document) (root : NodeId) (p : Path) : Option Place :=
  if d.contains root then d.follow? root p.frames else none

end Document

end LiveMarkup
