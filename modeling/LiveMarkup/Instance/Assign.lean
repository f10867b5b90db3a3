import LiveMarkup.Instance.Basic

/-!
# Assigning properties

A bound property writes the text of each of its locations anew. An iterating property builds an
instance for each item of an array before the former ones go, so that a failure leaves everything
as it was. How an instance is built is a parameter here.
-/

namespace LiveMarkup

structure Outcome where
  stage : Stage
  self : Instance
  error : Option EngineError

/-- Builds an instance of a blueprint with an item as its data. -/
abbrev Build := Stage → Blueprint → Json → Stage × Except EngineError Instance

namespace BoundLocation

/-- The place is the attribute of a form control that its live value stands for. -/
def isLiveValue (d : Document) (owner : NodeId) (index : Nat) : Bool :=
  ((d.name? owner).map isFormControl).getD false &&
    ((((d.attributes owner).entries[index]?).map fun a => sameName a.1 "value").getD false)

/-- The document with the text written at the place. -/
def write (d : Document) (place : Place) (text : String) : Document :=
  match place with
  | .node id => (d.setText id text).1
  | .attribute owner index =>
    if isLiveValue d owner index then (d.setControlValue owner text).1
    else (d.setAttributeAt owner index text).1

end BoundLocation

namespace Instance

def writeLocations (d : Document) (name : String) (values : Table Json)
    (locations : List BoundLocation) : Document :=
  locations.foldl (fun d l => BoundLocation.write d l.place (l.expression.evaluate name values)) d

/-- A bound property takes a value. -/
def assignBound (s : Stage) (i : Instance) (name : String) (locations : List BoundLocation)
    (v : Json) : Outcome :=
  let i := i.withValue name v
  let d := writeLocations s.document name i.values locations
  ⟨s.withDocument d, i.notify name, none⟩

/-- An instance for each item. If one cannot be built those before it go again. -/
def buildAll (build : Build) (view : Blueprint) (s : Stage) :
    List Json → List Instance → Stage × Except EngineError (List Instance)
  | [], done => (s, .ok done)
  | item :: rest, done =>
    match build s view item with
    | (s, .ok i) => buildAll build view s rest (done ++ [i])
    | (s, .error e) => (s.withDocument (removeRoots s.document done), .error e)

def appendRoots (d : Document) (anchor : NodeId) (instances : List Instance) : Document :=
  instances.foldl (fun d i => d.append anchor i.root) d

/-- An iterating property takes the items of an array. -/
def assignItems (build : Build) (s : Stage) (i : Instance) (name : String) (anchor : NodeId)
    (view : Blueprint) (former : List Instance) (items : List Json) : Outcome :=
  match buildAll build view s items [] with
  | (s, .error e) => ⟨s, i, some e⟩
  | (s, .ok batch) =>
    let d := appendRoots (removeRoots s.document former) anchor batch
    let s := (s.withDocument d).say (.debug "regenerated iteration region"
      [("children", toString batch.length)])
    let i := (i.withAccessor name (.iterating anchor view batch)).withValue name (.array items)
    ⟨s, i.notify name, none⟩

/-- A property takes a value. An iterating one takes nothing but arrays. A name without an
accessor only keeps the value. -/
def assignWith (build : Build) (s : Stage) (i : Instance) (name : String) (v : Json) : Outcome :=
  match i.accessors.get? name with
  | some (.bound locations) => i.assignBound s name locations v
  | some (.iterating anchor view former) =>
    match v with
    | .array items => assignItems build s i name anchor view former items
    | _ =>
      ⟨s.say (.warn (EngineError.invalidSequence name v.kindName).message []), i, none⟩
  | none => ⟨s, i.withValue name v, none⟩

/-- Assignments one after another, up to the first that fails. -/
def assignAllWith (build : Build) (s : Stage) (i : Instance) : List (String × Json) → Outcome
  | [] => ⟨s, i, none⟩
  | (name, v) :: rest =>
    match assignWith build s i name v with
    | ⟨s, i, none⟩ => assignAllWith build s i rest
    | failed => failed

def afterStart? : List Char → List Char → Option (List Char)
  | [], cs => some cs
  | _, [] => none
  | a :: start, c :: cs => if a = c then afterStart? start cs else none

/-- The path from the property `name` to the property `key` below it. -/
def pathBelow? (name key : String) : Option String :=
  (afterStart? (name.toList ++ ['.']) key.toList).map String.ofList

/-- The properties below `name` with what they are in its value, or null if they are not. -/
def dependents (i : Instance) (name : String) (v : Json) : List (String × Json) :=
  i.accessors.names.filterMap fun key =>
    (pathBelow? name key).map fun path => (key, (v.resolve? path).getD .null)

/-- A property and the properties below it take a value. -/
def setWith (build : Build) (s : Stage) (i : Instance) (name : String) (v : Json) : Outcome :=
  assignAllWith build s i ((name, v) :: i.dependents name v)

/-- Each of the properties that `data` has a value for takes it. Failures are said and passed
over. -/
def takeAllWith (build : Build) (data : Json) (s : Stage) (i : Instance) :
    List String → Stage × Instance
  | [] => (s, i)
  | name :: rest =>
    match data.resolve? name with
    | none => takeAllWith build data s i rest
    | some v =>
      match assignWith build s i name v with
      | ⟨s, i, none⟩ => takeAllWith build data s i rest
      | ⟨s, i, some e⟩ =>
        let s := s.say (.debug ("skipped during configure: " ++ e.message) [("property", name)])
        takeAllWith build data s i rest

/-- Every property takes its value from `data`, and the component is told. Null says nothing
about the properties. -/
def configureWith (build : Build) (s : Stage) (i : Instance) (data : Json) : Stage × Instance :=
  let (s, i) :=
    if data.isNull then (s, i) else takeAllWith build data s i i.accessors.names
  (s, i.receive (.configure data))

end Instance

end LiveMarkup
