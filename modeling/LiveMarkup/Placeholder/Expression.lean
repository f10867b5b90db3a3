import LiveMarkup.Json.Printer
import LiveMarkup.Placeholder.Marker

namespace LiveMarkup

inductive Fragment where
  | literal (text : String)
  | property (name : String)
deriving DecidableEq

inductive Expression where
  | wholeText
  | concat (fragments : List Fragment)
deriving DecidableEq

namespace Fragment

/-- A marker reads the property of its number, and is empty if there is none. -/
def ofSegment (names : List String) : Segment → Fragment
  | .literal text => .literal text
  | .marker i => ((names[i]?).map Fragment.property).getD (.literal "")

def property? : Fragment → Option String
  | .literal _ => none
  | .property name => some name

end Fragment

/-- The text of a property's value. A property that was never assigned is empty. -/
def valueText (values : Table Json) (name : String) : String :=
  ((values.get? name).map Json.toText).getD ""

namespace Expression

/-- The expression of an attribute's value with markers. -/
def ofText (names : List String) (text : String) : Expression :=
  .concat ((segments text).map (Fragment.ofSegment names))

/-- The properties that the expression reads by name, in order. -/
def properties : Expression → List String
  | .wholeText => []
  | .concat fragments => fragments.filterMap Fragment.property?

def fragmentText (values : Table Json) : Fragment → String
  | .literal text => text
  | .property name => valueText values name

/-- The text of the expression for the property `bound`. -/
def evaluate (e : Expression) (bound : String) (values : Table Json) : String :=
  match e with
  | .wholeText => valueText values bound
  | .concat fragments => String.join (fragments.map (fragmentText values))

def fragmentJson : Fragment → Json
  | .literal text => .object [("kind", .string "literal"), ("value", .string text)]
  | .property name => .object [("kind", .string "property"), ("value", .string name)]

def toJson : Expression → Json
  | .wholeText => .object [("kind", .string "replaceText")]
  | .concat fragments =>
    .object [("kind", .string "concat"), ("fragments", .array (fragments.map fragmentJson))]

end Expression

end LiveMarkup
