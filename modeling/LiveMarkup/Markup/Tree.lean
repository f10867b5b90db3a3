import LiveMarkup.Table

/-!
# Trees of nodes

A tree holds a label and the trees below it. The label is all that a node says about itself:
what it is, its attributes, and the live value of a form control.
-/

namespace LiveMarkup

inductive NodeKind where
  | element
  | text
  | comment
deriving DecidableEq

namespace NodeKind

def word : NodeKind → String
  | .element => "Element"
  | .text => "Text"
  | .comment => "Comment"

end NodeKind

inductive Content where
  | element (name : String)
  | text (value : String)
  | comment (value : String)
deriving DecidableEq

namespace Content

def kind : Content → NodeKind
  | .element _ => .element
  | .text _ => .text
  | .comment _ => .comment

/-- The name of a node, which texts and comments have in common. -/
def name : Content → String
  | .element name => name
  | .text _ => "#text"
  | .comment _ => "#comment"

def value? : Content → Option String
  | .element _ => none
  | .text value => some value
  | .comment value => some value

def isElement : Content → Bool
  | .element _ => true
  | _ => false

def isText : Content → Bool
  | .text _ => true
  | _ => false

/-- The same kind of node with other character data. An element has none. -/
def withValue (value : String) : Content → Content
  | .element name => .element name
  | .text _ => .text value
  | .comment _ => .comment value

end Content

structure Label where
  content : Content
  attributes : Table String
  control : Option String

namespace Label

def element (name : String) : Label := ⟨.element name, .empty, none⟩

def text (value : String) : Label := ⟨.text value, .empty, none⟩

def comment (value : String) : Label := ⟨.comment value, .empty, none⟩

def kind (l : Label) : NodeKind := l.content.kind

def name (l : Label) : String := l.content.name

/-- Siblings are counted among those of the same kind and name. -/
def sameStep (kind : NodeKind) (name : String) (l : Label) : Bool :=
  l.kind == kind && l.name == name

end Label

inductive Tree where
  | node (label : Label) (children : List Tree)

namespace Tree

def label : Tree → Label
  | node l _ => l

def children : Tree → List Tree
  | node _ ts => ts

def leaf (l : Label) : Tree := node l []

mutual

def size : Tree → Nat
  | node _ ts => 1 + sizeAll ts

def sizeAll : List Tree → Nat
  | [] => 0
  | t :: ts => size t + sizeAll ts

end

mutual

/-- The labels with their depths, each node before the nodes below it. -/
def rows (depth : Nat) : Tree → List (Nat × Label)
  | node l ts => (depth, l) :: rowsAll (depth + 1) ts

def rowsAll (depth : Nat) : List Tree → List (Nat × Label)
  | [] => []
  | t :: ts => rows depth t ++ rowsAll depth ts

end

def labels (t : Tree) : List Label := (t.rows 0).map (·.2)

def textContent (t : Tree) : String :=
  String.join (t.labels.filterMap fun l => if l.content.isText then l.content.value? else none)

end Tree

end LiveMarkup
