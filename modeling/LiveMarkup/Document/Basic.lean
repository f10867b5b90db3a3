import LiveMarkup.Markup.Tag
import LiveMarkup.Markup.Tree

/-!
# Documents

A document is an arena of nodes that are linked to their parents and children by handles. A slot
that was freed is used again, the last freed one first, so a handle that outlives its node may
come to mean another one. Every operation is total in its handles: one that means no node has no
effect.
-/

namespace LiveMarkup

abbrev NodeId := Nat

structure Node where
  label : Label
  parent : Option NodeId
  children : List NodeId

/-- The slots, and the free ones with the last freed first. -/
structure Document where
  slots : Array (Option Node)
  free : List NodeId

namespace Document

def empty : Document := ⟨#[], []⟩

instance : Inhabited Document := ⟨empty⟩

def size (d : Document) : Nat := d.slots.size - d.free.length

def node? (d : Document) (id : NodeId) : Option Node := (d.slots[id]?).getD none

def contains (d : Document) (id : NodeId) : Bool := (d.node? id).isSome

def setSlot (d : Document) (id : NodeId) (n : Option Node) : Document :=
  { d with slots := d.slots.setIfInBounds id n }

def modify (d : Document) (id : NodeId) (f : Node → Node) : Document :=
  match d.node? id with
  | some n => d.setSlot id (some (f n))
  | none => d

/-- A new node in the slot that was freed last, or in a new one. -/
def alloc (d : Document) (n : Node) : Document × NodeId :=
  match d.free with
  | id :: rest => ({ d with free := rest }.setSlot id (some n), id)
  | [] => ({ d with slots := d.slots.push (some n) }, d.slots.size)

def create (d : Document) (l : Label) : Document × NodeId := d.alloc ⟨l, none, []⟩

/-- The node of a slot is gone and the slot is free. -/
def release (d : Document) (id : NodeId) : Document :=
  match d.node? id with
  | some _ => { d.setSlot id none with free := id :: d.free }
  | none => d

def label? (d : Document) (id : NodeId) : Option Label := (d.node? id).map (·.label)

def kind? (d : Document) (id : NodeId) : Option NodeKind := (d.label? id).map Label.kind

def name? (d : Document) (id : NodeId) : Option String := (d.label? id).map Label.name

def parent? (d : Document) (id : NodeId) : Option NodeId := (d.node? id).bind (·.parent)

def children (d : Document) (id : NodeId) : List NodeId := ((d.node? id).map (·.children)).getD []

def attributes (d : Document) (id : NodeId) : Table String :=
  ((d.label? id).map (·.attributes)).getD .empty

def attribute? (d : Document) (id : NodeId) (name : String) : Option String :=
  (d.attributes id).get? name

/-- The character data of a text or a comment. -/
def text? (d : Document) (id : NodeId) : Option String :=
  (d.label? id).bind fun l => l.content.value?

/-- The live value of a form control. Until it is set it is the attribute `value`. -/
def controlValue? (d : Document) (id : NodeId) : Option String :=
  (d.label? id).bind fun l =>
    if isFormControl l.name then l.control.orElse fun _ => l.attributes.get? "value" else none

def modifyLabel (d : Document) (id : NodeId) (f : Label → Label) : Document :=
  d.modify id fun n => { n with label := f n.label }

/-- The attribute of that name has the value, behind the others if it is new. -/
def setAttribute (d : Document) (id : NodeId) (name value : String) : Document :=
  d.modifyLabel id fun l => { l with attributes := l.attributes.put name value }

/-- A change to the attribute at a place. The flag says whether there is one. -/
def modifyAttributeAt (d : Document) (id : NodeId) (index : Nat)
    (f : String × String → String × String) : Document × Bool :=
  if index < (d.attributes id).entries.length then
    (d.modifyLabel id fun l => { l with attributes := ⟨l.attributes.entries.modify index f⟩ }, true)
  else (d, false)

def setAttributeAt (d : Document) (id : NodeId) (index : Nat) (value : String) :
    Document × Bool :=
  d.modifyAttributeAt id index fun a => (a.1, value)

def renameAttributeAt (d : Document) (id : NodeId) (index : Nat) (name : String) :
    Document × Bool :=
  d.modifyAttributeAt id index fun a => (name, a.2)

/-- The attribute of that name is gone. Its value is given back. -/
def removeAttribute (d : Document) (id : NodeId) (name : String) : Document × Option String :=
  match d.attribute? id name with
  | none => (d, none)
  | some value =>
    (d.modifyLabel id fun l => { l with attributes := l.attributes.erase name }, some value)

/-- Only texts and comments have character data. -/
def setText (d : Document) (id : NodeId) (value : String) : Document × Bool :=
  match d.text? id with
  | some _ => (d.modifyLabel id fun l => { l with content := l.content.withValue value }, true)
  | none => (d, false)

/-- Only form controls have a live value. -/
def setControlValue (d : Document) (id : NodeId) (value : String) : Document × Bool :=
  if ((d.name? id).map isFormControl).getD false then
    (d.modifyLabel id fun l => { l with control := some value }, true)
  else (d, false)

/-- The node is taken out of its parent's children. What is below it stays. -/
def detach (d : Document) (id : NodeId) : Document :=
  match d.parent? id with
  | none => d
  | some p =>
    let d := d.modify p fun n => { n with children := n.children.filter (· != id) }
    d.modify id fun n => { n with parent := none }

/-- The list with `x` put before `before`, or at the end if that is not in the list. -/
def insertInto (x : NodeId) (before : Option NodeId) (ids : List NodeId) : List NodeId :=
  match before with
  | some b => ids.takeWhile (· != b) ++ x :: ids.dropWhile (· != b)
  | none => ids ++ [x]

/-- The child comes before one of the parent's other children, or last. It leaves the place where
it was. -/
def insertBefore (d : Document) (parent child : NodeId) (before : Option NodeId) : Document :=
  if parent = child || !d.contains parent || !d.contains child then d
  else
    let d := d.detach child
    let d := d.modify child fun n => { n with parent := some parent }
    d.modify parent fun n => { n with children := insertInto child before n.children }

def append (d : Document) (parent child : NodeId) : Document := d.insertBefore parent child none

end Document

end LiveMarkup
