import LiveMarkup.Instance.Assign

namespace LiveMarkup

namespace Instance

/-- A copy of the skeleton with its properties. Then the component is told to start, and the data
is applied. -/
def buildWith (build : Build) (registry : Registry) (s : Stage) (b : Blueprint)
    (className : Option String) (data : Json) : Stage × Except EngineError Instance :=
  let className := className.getD b.targetClass
  match registry.create className with
  | .error e => (s, .error e)
  | .ok component =>
    let (d, root) := s.document.graft b.skeleton
    let (s, i, _) := (new root className component registry).bind (s.withDocument d) b root
    let (s, i) := configureWith build s (i.receive .start) data
    (s, .ok i)

/-- Builds instances of blueprints whose regions nest less deep than `depth`. -/
def buildWithin (registry : Registry) : Nat → Build
  | 0, s, b, _ => (s, .error (.bindingResolution b.targetClass Path.root.display))
  | depth + 1, s, b, data => buildWith (buildWithin registry depth) registry s b none data

def build (registry : Registry) : Build := fun s b data =>
  buildWithin registry b.depth s b data

/-- An instance of the class, or of the blueprint's own. No data is the same as null. -/
def instantiate (registry : Registry) (s : Stage) (b : Blueprint) (className : Option String)
    (data : Option Json) : Stage × Except EngineError Instance :=
  buildWith (build registry) registry s b className (data.getD .null)

def assign (s : Stage) (i : Instance) (name : String) (v : Json) : Outcome :=
  assignWith (build i.registry) s i name v

def set (s : Stage) (i : Instance) (name : String) (v : Json) : Outcome :=
  setWith (build i.registry) s i name v

def configure (s : Stage) (i : Instance) (data : Json) : Stage × Instance :=
  configureWith (build i.registry) s i data

/-- The names that a blueprint exposes and the instance has values for, with these values. -/
def heldValues (i : Instance) (b : Blueprint) : List (String × Json) :=
  b.exposures.filterMap fun
    | .leaf name _ => (i.get? name).map fun v => (name, v)
    | .iterating name _ => (i.get? name).map fun v => (name, v)

/-- The instance with a copy of a blueprint's skeleton as its last child, the blueprint's
properties, and the values it has for them written there. The copy's root is given back. -/
def extend (s : Stage) (i : Instance) (b : Blueprint) : Outcome × NodeId :=
  let (d, root) := s.document.graft b.skeleton
  let (s, i, _) := i.bind (s.withDocument (d.append i.root root)) b root
  (assignAllWith (build i.registry) s i (i.heldValues b), root)

end Instance

end LiveMarkup
