import LiveMarkup.Json.Record

namespace LiveMarkup

structure Config where
  /-- The attribute that marks an element as a repeated region. -/
  iterationAttribute : String
  /-- Keep the white space between tags. -/
  preserveWhitespace : Bool
  /-- The name of the source in diagnostics. -/
  sourceUrl : String
  /-- The class of an instance where the caller names none. -/
  defaultClass : String
deriving DecidableEq

namespace Config

def standard : Config := ⟨"data-repeat", false, "template.html", "Component"⟩

instance : Inhabited Config := ⟨standard⟩

def fieldNames : List String :=
  ["iterationAttribute", "preserveWhitespace", "sourceUrl", "defaultClass"]

/-- The configuration with one member of its record. Other members are ignored. -/
def withMember? (c : Config) (m : String × Json) : Option Config :=
  match m with
  | ("iterationAttribute", .string s) => some { c with iterationAttribute := s }
  | ("preserveWhitespace", .bool b) => some { c with preserveWhitespace := b }
  | ("sourceUrl", .string s) => some { c with sourceUrl := s }
  | ("defaultClass", .string s) => some { c with defaultClass := s }
  | (name, _) => if fieldNames.contains name then none else some c

/-- The configuration with these members, each field at most once. -/
def ofMembers? (members : List (String × Json)) : Option Config :=
  let fields := (members.map (·.1)).filter fieldNames.contains
  if fields.eraseDups.length = fields.length then members.foldlM withMember? standard else none

/-- The configuration that an object writes. -/
def ofObject? : Json → Option Config
  | .object members => ofMembers? members
  | _ => none

/-- The configuration that a text writes as a record. -/
def read? (s : String) : Option Config := (Json.readRecord? fieldNames s).bind ofMembers?

def toJson (c : Config) : Json :=
  .object [("iterationAttribute", .string c.iterationAttribute),
    ("preserveWhitespace", .bool c.preserveWhitespace), ("sourceUrl", .string c.sourceUrl),
    ("defaultClass", .string c.defaultClass)]

end Config

end LiveMarkup
