import LiveMarkup.Markup.Parser

namespace LiveMarkup

inductive Item where
  | opening (name : String) (attributes : Table String) (selfClosing : Bool) (span : Span)
  | closing (name : String) (span : Span)
  | text (value : String)
  | comment (value : String)

namespace Item

def isAttribute (t : Token) : Bool :=
  match t.lexeme with
  | .attributeName _ => true
  | .attributeValue _ => true
  | _ => false

/-- The attributes at the start of a run of tokens. One without a value is empty. -/
def attributes : List Token → List (String × String)
  | ⟨.attributeName name, _⟩ :: ⟨.attributeValue value, _⟩ :: rest =>
    (name, value) :: attributes rest
  | ⟨.attributeName name, _⟩ :: rest => (name, "") :: attributes rest
  | _ => []

/-- The tokens after the attributes say that the start tag ends in `/>`. -/
def isSelfClosing (tokens : List Token) : Bool :=
  match tokens.dropWhile isAttribute with
  | ⟨.startTagEndVoid, _⟩ :: _ => true
  | _ => false

/-- The items of a run of tokens. A later attribute of the same name overrides an earlier one. -/
def ofTokens : List Token → List Item
  | [] => []
  | ⟨lexeme, span⟩ :: rest =>
    match lexeme with
    | .startTag name =>
      .opening name (Table.ofEntries (attributes rest)) (isSelfClosing rest) span :: ofTokens rest
    | .endTag name => .closing name span :: ofTokens rest
    | .text value => .text value :: ofTokens rest
    | .cdata value => .text value :: ofTokens rest
    | .comment value => .comment value :: ofTokens rest
    | _ => ofTokens rest

end Item

/-- An element whose end tag is still to come. Its children are in reverse. -/
structure OpenElement where
  name : String
  attributes : Table String
  span : Span
  children : List Tree

namespace OpenElement

def tree (e : OpenElement) : Tree :=
  .node ⟨.element e.name, e.attributes, none⟩ e.children.reverse

def unclosed (e : OpenElement) : Diagnostic := TreeBuilder.unclosed e.name e.span

end OpenElement

/-- The open elements, the trees outside of all elements in reverse, and the errors in order. -/
structure Builder where
  opened : List OpenElement
  roots : List Tree
  errors : List Diagnostic

namespace Builder

def start : Builder := ⟨[], [], []⟩

def siblings (b : Builder) : List Tree :=
  match b.opened with
  | [] => b.roots
  | e :: _ => e.children

def withSiblings (b : Builder) (ts : List Tree) : Builder :=
  match b.opened with
  | [] => { b with roots := ts }
  | e :: rest => { b with opened := { e with children := ts } :: rest }

def add (b : Builder) (t : Tree) : Builder := b.withSiblings (t :: b.siblings)

def report (b : Builder) (ds : List Diagnostic) : Builder := { b with errors := b.errors ++ ds }

def closeInnermost (b : Builder) : Builder :=
  match b.opened with
  | [] => b
  | e :: rest => { b with opened := rest }.add e.tree

def close (b : Builder) : Nat → Builder
  | 0 => b
  | n + 1 => b.closeInnermost.close n

def keepsSpace (b : Builder) : Bool :=
  match b.opened with
  | [] => false
  | e :: _ => LiveMarkup.keepsSpace e.name

def addText (b : Builder) (value : String) : Builder :=
  match b.siblings with
  | .node ⟨.text before, attributes, control⟩ ts :: rest =>
    b.withSiblings (.node ⟨.text (before ++ value), attributes, control⟩ ts :: rest)
  | _ => b.add (.leaf (.text value))

def push (preserve : Bool) (b : Builder) : Item → Builder
  | .opening name attributes selfClosing span =>
    if selfClosing || isVoid name then b.add (.leaf ⟨.element name, attributes, none⟩)
    else { b with opened := ⟨name, attributes, span, []⟩ :: b.opened }
  | .closing name span =>
    match b.opened.findIdx? fun e => sameName e.name name with
    | none => b.report [TreeBuilder.unmatched name span]
    | some i => (b.report ((b.opened.take i).reverse.map OpenElement.unclosed)).close (i + 1)
  | .text value =>
    if value.isEmpty then b
    else if !preserve && value.toList.all isMarkupSpace && !b.keepsSpace then b
    else b.addText value
  | .comment value => b.add (.leaf (.comment value))

def finish (b : Builder) : Builder :=
  (b.report (b.opened.reverse.map OpenElement.unclosed)).close b.opened.length

def run (preserve : Bool) (items : List Item) : Builder :=
  (items.foldl (push preserve) start).finish

end Builder

end LiveMarkup
