import LiveMarkup.Table

namespace LiveMarkup

/-- An integer is exact. Every other number is a finite double. -/
inductive JsonNumber where
  | integer (value : Int)
  | double (value : Float)
deriving DecidableEq

inductive Json where
  | null
  | bool (value : Bool)
  | number (value : JsonNumber)
  | string (value : String)
  | array (items : List Json)
  | object (members : List (String × Json))

instance : Inhabited Json := ⟨.null⟩

namespace Json

def natural (n : Nat) : Json := .number (.integer n)

def member? (name : String) : Json → Option Json
  | .object members => Table.get? ⟨members⟩ name
  | _ => none

def isNull : Json → Bool
  | .null => true
  | _ => false

/-- The word for the kind of a value. -/
def kindName : Json → String
  | .null => "null"
  | .bool _ => "boolean"
  | .number _ => "number"
  | .string _ => "string"
  | .array _ => "array"
  | .object _ => "object"

mutual

/-- The value with each object's repeated names put together: the first place, the last value. -/
def collapse : Json → Json
  | .array items => .array (collapseAll items)
  | .object members => .object (Table.ofEntries (collapseMembers members)).entries
  | v => v

def collapseAll : List Json → List Json
  | [] => []
  | v :: rest => collapse v :: collapseAll rest

def collapseMembers : List (String × Json) → List (String × Json)
  | [] => []
  | m :: rest => collapseMember m :: collapseMembers rest

def collapseMember : String × Json → String × Json
  | (name, v) => (name, collapse v)

end

end Json

end LiveMarkup
