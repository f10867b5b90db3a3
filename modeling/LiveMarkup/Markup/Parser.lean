import LiveMarkup.Document.Walk
import LiveMarkup.Markup.Lexer

/-!
# From tokens to a document

The builder writes each node into the document when its token comes. An element joins its parent only
where its start tag ends, and takes the attributes that come until then. An end tag closes the innermost
open element of its name and all that were opened inside it.
-/

namespace LiveMarkup

/-- An element whose end tag is still to come. -/
structure OpenTag where
  id : NodeId
  name : String
  span : Span

/-- The open elements are kept with the innermost first. -/
structure TreeBuilder where
  document : Document
  roots : List NodeId
  opened : List OpenTag
  errors : List Diagnostic
  /-- The element of a start tag that has not ended yet. -/
  pending : Option OpenTag
  /-- An attribute of that tag before its value. -/
  pendingName : Option String

namespace TreeBuilder

def start : TreeBuilder := ⟨.empty, [], [], [], none, none⟩

def unclosed (name : String) (span : Span) : Diagnostic :=
  .error span ("Unclosed element \"" ++ name ++ "\"")

def unmatched (name : String) (span : Span) : Diagnostic :=
  if isVoid name then .error span ("Void elements do not have end tags \"" ++ name ++ "\"")
  else .error span ("Unexpected closing tag \"" ++ name ++ "\"")

def report (b : TreeBuilder) (ds : List Diagnostic) : TreeBuilder :=
  { b with errors := b.errors ++ ds }

/-- The elements are still open at a place where they cannot be. -/
def reportUnclosed (b : TreeBuilder) (tags : List OpenTag) : TreeBuilder :=
  b.report (tags.reverse.map fun e => unclosed e.name e.span)

def addToParent (b : TreeBuilder) (id : NodeId) : TreeBuilder :=
  match b.opened with
  | [] => { b with roots := b.roots ++ [id] }
  | e :: _ => { b with document := b.document.append e.id id }

def addLeaf (b : TreeBuilder) (l : Label) : TreeBuilder :=
  let (d, id) := b.document.create l
  { b with document := d }.addToParent id

/-- The attribute that waits for its value has it. -/
def setAttribute (b : TreeBuilder) (value : String) : TreeBuilder :=
  match b.pending, b.pendingName with
  | some e, some name =>
    { b with document := b.document.setAttribute e.id name value, pendingName := none }
  | _, _ => { b with pendingName := none }

/-- An attribute without a value is empty. -/
def flushAttribute (b : TreeBuilder) : TreeBuilder := b.setAttribute ""

def finishStartTag (b : TreeBuilder) (selfClosing : Bool) : TreeBuilder :=
  let b := b.flushAttribute
  match b.pending with
  | none => b
  | some e =>
    let b := { b with pending := none }.addToParent e.id
    if selfClosing || isVoid e.name then b else { b with opened := e :: b.opened }

/-- A start tag before this one may have been cut short. -/
def startTag (b : TreeBuilder) (name : String) (span : Span) : TreeBuilder :=
  let b := b.finishStartTag false
  let (d, id) := b.document.create (.element name)
  { b with document := d, pending := some ⟨id, name, span⟩ }

def attributeName (b : TreeBuilder) (name : String) : TreeBuilder :=
  { b.flushAttribute with pendingName := some name }

def endTag (b : TreeBuilder) (name : String) (span : Span) : TreeBuilder :=
  let b := b.finishStartTag false
  match b.opened.findIdx? fun e => sameName e.name name with
  | none => b.report [unmatched name span]
  | some i => { b.reportUnclosed (b.opened.take i) with opened := b.opened.drop (i + 1) }

def keepsSpace (b : TreeBuilder) : Bool :=
  match b.opened with
  | [] => false
  | e :: _ => LiveMarkup.keepsSpace e.name

/-- The nodes finished at the innermost level. -/
def siblings (b : TreeBuilder) : List NodeId :=
  match b.opened with
  | [] => b.roots
  | e :: _ => b.document.children e.id

/-- A text joins the text right before it. -/
def addText (b : TreeBuilder) (value : String) : TreeBuilder :=
  match b.siblings.getLast?.filter fun id => b.document.kind? id = some .text with
  | some id =>
    let before := (b.document.text? id).getD ""
    { b with document := (b.document.setText id (before ++ value)).1 }
  | none => b.addLeaf (.text value)

def text (preserve : Bool) (b : TreeBuilder) (value : String) : TreeBuilder :=
  let b := b.finishStartTag false
  if value.isEmpty then b
  else if !preserve && value.toList.all isMarkupSpace && !b.keepsSpace then b
  else b.addText value

/-- At the end of the source every open element is an error. -/
def finish (b : TreeBuilder) : TreeBuilder :=
  let b := b.finishStartTag false
  { b.reportUnclosed b.opened with opened := [] }

def push (preserve : Bool) (b : TreeBuilder) (t : Token) : TreeBuilder :=
  match t.lexeme with
  | .startTag name => b.startTag name t.span
  | .attributeName name => b.attributeName name
  | .attributeValue value => b.setAttribute value
  | .startTagEnd => b.finishStartTag false
  | .startTagEndVoid => b.finishStartTag true
  | .endTag name => b.endTag name t.span
  | .text value => b.text preserve value
  | .cdata value => b.text preserve value
  | .comment value => b.addLeaf (.comment value)
  | .doctype _ => b
  | .endOfSource => b.finish

def build (preserve : Bool) (tokens : List Token) : TreeBuilder := tokens.foldl (push preserve) start

end TreeBuilder

/-- The document of a source, and all errors, those of the lexer first. -/
structure Parsed where
  source : Source
  document : Document
  rootNodes : List NodeId
  errors : List Diagnostic

def Parsed.roots (p : Parsed) : List Tree := p.rootNodes.filterMap p.document.tree?

/-- The document of a text. White space between tags is dropped unless `preserve` is set. -/
def parse (text url : String) (preserve : Bool) : Parsed :=
  let lexed := lex text url
  let built := TreeBuilder.build preserve lexed.tokens
  ⟨lexed.source, built.document, built.roots, lexed.errors ++ built.errors⟩

end LiveMarkup
