import LiveMarkup.Blueprint.Basic
import LiveMarkup.Document.Walk
import LiveMarkup.Event
import LiveMarkup.Instance.Component
import LiveMarkup.Json.Path

/-!
# Instances

An instance is a subtree of a document with an accessor for each of its properties. A bound
property writes its text to locations. An iterating property keeps an instance for each item of
an array. The document is not part of the instance, so that instances can share one.
-/

namespace LiveMarkup

structure BoundLocation where
  place : Place
  expression : Expression
deriving DecidableEq

inductive Accessor (ι : Type) where
  | bound (locations : List BoundLocation)
  | iterating (anchor : NodeId) (view : Blueprint) (children : List ι)

structure Instance where
  root : NodeId
  className : String
  component : Component
  values : Table Json
  accessors : Table (Accessor Instance)
  registry : Registry

/-- The document that instances live in, and what has been said about them. -/
structure Stage where
  document : Document
  log : Log

namespace Stage

def say (s : Stage) (e : Event) : Stage := { s with log := s.log ++ [e] }

def withDocument (s : Stage) (d : Document) : Stage := { s with document := d }

end Stage

namespace Instance

/-- An instance over a subtree, with no property yet. -/
def new (root : NodeId) (className : String) (component : Component) (registry : Registry) :
    Instance :=
  ⟨root, className, component, .empty, .empty, registry⟩

def hasProperty (i : Instance) (name : String) : Bool := i.accessors.contains name

def get? (i : Instance) (name : String) : Option Json := i.values.get? name

def children (i : Instance) (name : String) : List Instance :=
  match i.accessors.get? name with
  | some (.iterating _ _ children) => children
  | _ => []

def receive (i : Instance) (h : Hook) : Instance := { i with component := i.component.receive h }

def notify (i : Instance) (name : String) : Instance :=
  i.receive (.propertyChange (if name = selfReference then none else some name))

def withValue (i : Instance) (name : String) (v : Json) : Instance :=
  { i with values := i.values.put name v }

def withAccessor (i : Instance) (name : String) (a : Accessor Instance) : Instance :=
  { i with accessors := i.accessors.put name a }

def render (i : Instance) (d : Document) : String := d.render i.root

def textContent (i : Instance) (d : Document) : String := d.textContent i.root

def removeRoots (d : Document) (instances : List Instance) : Document :=
  instances.foldl (fun d i => d.remove i.root) d

/-- A new accessor. The instances of an iterating one that it replaces are gone. -/
def replaceAccessor (s : Stage) (i : Instance) (name : String) (a : Accessor Instance) :
    Stage × Instance :=
  let next := i.withAccessor name a
  match i.accessors.get? name with
  | some (.iterating _ _ children) =>
    let s := s.say (.warn "iteration region redefined; previous children removed"
      [("property", name)])
    (s.withDocument (removeRoots s.document children), next)
  | _ => (s, next)

/-- One more accessor for a property. Locations add up. Any other accessor replaces the former. -/
def defineProperty (s : Stage) (i : Instance) (name : String) (a : Accessor Instance) :
    Stage × Instance :=
  match a, i.accessors.get? name with
  | .bound more, some (.bound locations) => (s, i.withAccessor name (.bound (locations ++ more)))
  | a, _ => i.replaceAccessor s name a

/-- The locations of records below `root`, and the events of those that lead nowhere. -/
def resolveRecords (d : Document) (root : NodeId) (name : String) :
    List BindingRecord → List BoundLocation × Log
  | [] => ([], [])
  | r :: rest =>
    let (locations, log) := resolveRecords d root name rest
    match d.decode? root r.path with
    | some place => (⟨place, r.expression⟩ :: locations, log)
    | none =>
      (locations, .warn (EngineError.bindingResolution name r.path.display).message [] :: log)

/-- The instance with one more property of a blueprint below `root`, and how many locations it
has there. -/
def bindExposure (s : Stage) (i : Instance) (root : NodeId) : Exposure → Stage × Instance × Nat
  | .leaf name records =>
    let (locations, log) := resolveRecords s.document root name records
    let s : Stage := { s with log := s.log ++ log }
    let (s, i) := i.defineProperty s name (.bound locations)
    (s, i, locations.length)
  | .iterating name region =>
    match s.document.decode? root region.anchor with
    | some (.node anchor) =>
      let (s, i) := i.defineProperty s name (.iterating anchor region.view [])
      (s, i, 1)
    | _ =>
      (s.say (.warn (EngineError.bindingResolution name region.anchor.display).message []), i, 0)

def bindExposures (s : Stage) (i : Instance) (root : NodeId) :
    List Exposure → Stage × Instance × Nat
  | [] => (s, i, 0)
  | e :: rest =>
    let (s, i, n) := i.bindExposure s root e
    let (s, i, m) := i.bindExposures s root rest
    (s, i, n + m)

/-- The instance with the properties of a blueprint, whose paths lead from `root`, and how many
locations were found. -/
def bind (s : Stage) (i : Instance) (b : Blueprint) (root : NodeId) : Stage × Instance × Nat :=
  let (s, i, n) := i.bindExposures s root b.exposures
  (s.say (.debug "installed shadow view bindings"
    [("class", i.className), ("resolved", toString n)]), i, n)

end Instance

end LiveMarkup
