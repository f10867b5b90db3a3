import LiveMarkup.Proofs.Instance.Coherence
import LiveMarkup.Proofs.Picture.Inscription
import Mathlib.Data.List.Forall2
import Mathlib.Logic.Function.Basic

/-!
# Pictures

A picture is all that an instance comes to, without the slots of a document: the labels of its own
nodes, the trees that hang below them, and the values of its properties. What an assignment changes in
a picture depends on the accessors of the instance and on the value, but on nothing in the picture.
-/

namespace LiveMarkup

open Document

/-- The labels of the own nodes of an instance, the trees of each region below them under the name of
its property, and the values. -/
@[ext]
structure Picture where
  label : NodeId → Label
  hung : NodeId → List (String × Tree)
  value : String → Option Json

/-- What an assignment does. -/
inductive Change where
  | inscribe (name : String) (v : Json) (ls : List BoundLocation)
  | hang (name : String) (v : Json) (anchor : NodeId) (ts : List Tree)
  | pass

namespace Picture

def withValue (p : Picture) (name : String) (v : Json) : Picture :=
  { p with value := Function.update p.value name (some v) }

/-- The text of a property's locations is written to the labels. -/
def write (p : Picture) (name : String) (ls : List BoundLocation) : Picture :=
  let text (r : BoundLocation) := r.expression.textOf name p.value
  { p with label := fun x => (p.label x).inscribed (BoundLocation.writesAt x text ls) }

def rehang (p : Picture) (name : String) (anchor : NodeId) (ts : List Tree) : Picture :=
  let these := ts.map fun t => (name, t)
  { p with hung := fun x => (p.hung x).filter (·.1 ≠ name) ++ if x = anchor then these else [] }

mutual

/-- The labels of a shape, and behind the children of each node the trees that hang there. -/
def treeOf (p : Picture) : Shape → Tree
  | .node id cs => .node (p.label id) (treesOf p cs ++ (p.hung id).map (·.2))

def treesOf (p : Picture) : List Shape → List Tree
  | [] => []
  | c :: cs => treeOf p c :: treesOf p cs

end

theorem treesOf_eq (p : Picture) (cs : List Shape) : p.treesOf cs = cs.map p.treeOf := by
  induction cs with
  | nil => rfl
  | cons c cs ih => rw [treesOf, ih, List.map_cons]

theorem treeOf_node (p : Picture) (id : NodeId) (cs : List Shape) :
    p.treeOf (.node id cs) = .node (p.label id) (cs.map p.treeOf ++ (p.hung id).map (·.2)) := by
  rw [treeOf, treesOf_eq]

theorem treeOf_congr {p q : Picture} {s : Shape} (hlabels : ∀ x ∈ s.ids, p.label x = q.label x)
    (hhung : ∀ x ∈ s.ids, p.hung x = q.hung x) : p.treeOf s = q.treeOf s := by
  induction s with
  | node id cs ih =>
    have hid : id ∈ (Shape.node id cs).ids := Shape.id_mem_ids (.node id cs)
    rw [treeOf_node, treeOf_node, hlabels id hid, hhung id hid]
    congr 2
    exact List.map_congr_left fun c hc => ih c hc
      (fun x hx => hlabels x (Shape.ids_subset_of_mem hc hx))
      fun x hx => hhung x (Shape.ids_subset_of_mem hc hx)

end Picture

namespace Change

def apply (p : Picture) : Change → Picture
  | .inscribe name v ls => (p.withValue name v).write name ls
  | .hang name v anchor ts => (p.rehang name anchor ts).withValue name v
  | .pass => p

def applyAll (p : Picture) (cs : List Change) : Picture := cs.foldl apply p

end Change

namespace Instance

variable (grow : Blueprint → Json → Option Tree) (as : List (String × Accessor Instance))

/-- What it does to assign a value to a property, if `grow` gives the trees of a region's items. -/
def changeOf (name : String) (v : Json) : Change :=
  match Table.get? ⟨as⟩ name with
  | none => .inscribe name v []
  | some (.bound ls) => .inscribe name v ls
  | some (.iterating anchor view _) =>
    match v with
    | .array items => (items.mapM (grow view)).elim .pass (.hang name v anchor)
    | _ => .pass

/-- A region gets items of which one has no tree. -/
def fails (name : String) (v : Json) : Bool :=
  match Table.get? ⟨as⟩ name with
  | some (.iterating _ view _) =>
    match v with
    | .array items => (items.mapM (grow view)).isNone
    | _ => false
  | _ => false

/-- What it does to assign values one after another, up to the first assignment that fails. -/
def changesOf (values : List (String × Json)) : List Change :=
  (values.takeWhile fun p => !fails grow as p.1 p.2).map fun p => changeOf grow as p.1 p.2

end Instance

end LiveMarkup
