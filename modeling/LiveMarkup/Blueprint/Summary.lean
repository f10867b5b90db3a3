import LiveMarkup.Blueprint.Basic

namespace LiveMarkup

namespace Blueprint

def propertySummary (p : String × List BindingRecord) : Json :=
  .object [("name", .string p.1), ("bindings", .natural p.2.length),
    ("paths", .array (p.2.map fun r => .string r.path.display))]

mutual

def summary : Blueprint → Json
  | ⟨skeleton, properties, regions, targetClass⟩ =>
    .object [("targetClass", .string targetClass), ("skeleton", .string skeleton.render),
      ("properties", .array (properties.entries.map propertySummary)),
      ("regions", .object (summaryTable regions))]

def summaryTable : Table (Region Blueprint) → List (String × Json)
  | ⟨entries⟩ => summaryEntries entries

def summaryEntries : List (String × Region Blueprint) → List (String × Json)
  | [] => []
  | e :: rest => summaryEntry e :: summaryEntries rest

def summaryEntry : String × Region Blueprint → String × Json
  | (name, r) => (name, summaryRegion r)

def summaryRegion : Region Blueprint → Json
  | ⟨anchor, view⟩ => .object [("anchor", .string anchor.display), ("view", summary view)]

end

end Blueprint

end LiveMarkup
