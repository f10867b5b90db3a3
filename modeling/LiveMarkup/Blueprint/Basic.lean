import LiveMarkup.Document.Path
import LiveMarkup.Markup.Writer
import LiveMarkup.Placeholder.Expression

/-!
# Blueprints

A blueprint is what a template compiles to: a skeleton without placeholders, the locations that
each property is written to, and a blueprint for each repeated region. Instances are copies of
the skeleton.
-/

namespace LiveMarkup

/-- A location in the skeleton and the expression that it holds. -/
structure BindingRecord where
  path : Path
  expression : Expression
deriving DecidableEq

structure Region (β : Type) where
  anchor : Path
  view : β

structure Blueprint where
  skeleton : Tree
  properties : Table (List BindingRecord)
  regions : Table (Region Blueprint)
  targetClass : String

namespace Blueprint

/-- The place of a property among all properties. -/
def indexOf? (b : Blueprint) (name : String) : Option Nat := b.properties.names.idxOf? name

def recordsOf (b : Blueprint) (name : String) : List BindingRecord :=
  (b.properties.get? name).getD []

end Blueprint

inductive Exposure where
  | leaf (name : String) (records : List BindingRecord)
  | iterating (name : String) (region : Region Blueprint)

namespace Blueprint

/-- The properties with locations that drive no region, and then the regions. -/
def exposures (b : Blueprint) : List Exposure :=
  let leaves := b.properties.entries.filter fun p => !p.2.isEmpty && !b.regions.contains p.1
  leaves.map (fun p => .leaf p.1 p.2) ++ b.regions.entries.map fun r => .iterating r.1 r.2

mutual

def depth : Blueprint → Nat
  | ⟨_, _, regions, _⟩ => depthTable regions + 1

def depthTable : Table (Region Blueprint) → Nat
  | ⟨entries⟩ => depthEntries entries

def depthEntries : List (String × Region Blueprint) → Nat
  | [] => 0
  | e :: rest => max (depthEntry e) (depthEntries rest)

def depthEntry : String × Region Blueprint → Nat
  | (_, r) => depthRegion r

def depthRegion : Region Blueprint → Nat
  | ⟨_, view⟩ => depth view

end

end Blueprint

end LiveMarkup
