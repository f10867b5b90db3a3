import LiveMarkup.Error
import LiveMarkup.Json.Value

/-!
# Components

Behind each instance stands a component of some class. The engine only calls its hooks. What a
component knows about itself is a function of the calls it has received.
-/

namespace LiveMarkup

inductive Hook where
  | start
  | configure (data : Json)
  /-- A property has a new value. The self reference has no name. -/
  | propertyChange (name : Option String)

/-- What a component makes of the calls. -/
inductive ComponentKind where
  | generic
  | recorder
  | inert
deriving DecidableEq

structure Component where
  kind : ComponentKind
  received : List Hook

namespace Component

def new (kind : ComponentKind) : Component := ⟨kind, []⟩

def receive (c : Component) (h : Hook) : Component := { c with received := c.received ++ [h] }

def isInitialized (c : Component) : Bool :=
  c.received.any fun
    | .start => true
    | _ => false

def configureCount (c : Component) : Nat :=
  c.received.countP fun
    | .configure _ => true
    | _ => false

def changes (c : Component) : List (Option String) :=
  c.received.filterMap fun
    | .propertyChange name => some name
    | _ => none

def lastChange? (c : Component) : Option (Option String) := c.changes.getLast?

end Component

abbrev Registry := Table ComponentKind

namespace Registry

def standard : Registry := ⟨[("Component", .generic)]⟩

def create (r : Registry) (name : String) : Except EngineError Component :=
  match Table.get? r name with
  | some kind => .ok (.new kind)
  | none => .error (.unknownClass name)

end Registry

end LiveMarkup
