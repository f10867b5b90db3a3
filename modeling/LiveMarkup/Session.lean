import LiveMarkup.Document.Edit
import LiveMarkup.Template.Basic

/-!
# Sessions

A session holds templates and the instances made of them. Instances that were made into the
document of another one share it. A command addresses an instance by its place in the list of
instances, and goes on from there to the instances kept for the items of iterating properties.
-/

namespace LiveMarkup

/-- An instance of the list, and the way down from it: a property and the place of an item. -/
structure Address where
  index : Nat
  steps : List (String × Nat)

/-- An instance and the place of its document among the documents. -/
structure Resident where
  document : Nat
  self : Instance

structure Session where
  templates : List Template
  documents : List Document
  residents : List Resident

/-- A direct edit of the tree of an instance, at a node of it. -/
inductive NodeEdit where
  | remove
  | detach
  | setAttribute (name value : String)
  | removeAttribute (name : String)
  | setText (value : String)
  | setControlValue (value : String)
  | appendElement (name : String)
  | appendText (value : String)

inductive Command where
  /-- An instance of a template in a document of its own. -/
  | make (template : Nat) (className : Option String) (data : Option Json)
  /-- An instance of a template in the document of another instance, with its classes. -/
  | makeInto (template : Nat) (target : Address) (className : Option String) (data : Option Json)
  /-- An instance over the first tree of a text, with no property yet. -/
  | host (text className : String) (registry : Registry)
  | set (target : Address) (name : String) (value : Json)
  | configure (target : Address) (data : Json)
  | get (target : Address) (name : String)
  | has (target : Address) (name : String)
  | extend (target : Address) (template : Nat)
  /-- Binds a template's blueprint below a node, given by child places from the root. -/
  | bind (target : Address) (template : Nat) (node : List Nat)
  | edit (target : Address) (node : List Nat) (change : NodeEdit)
  | isCompiled (template : Nat)
  | view (template : Nat)
  | apply (template : Nat) (data : Json)

inductive Reply where
  | done
  | number (n : Nat)
  | position (p : Option Nat)
  | flag (b : Bool)
  | value (v : Option Json)
  | text (s : String)
  | edited (r : EditReply)
  | failed (e : EngineError)
  /-- The command addresses something that is not there. -/
  | noSuchThing

namespace Instance

def descend? (i : Instance) : List (String × Nat) → Option Instance
  | [] => some i
  | (name, place) :: rest => ((i.children name)[place]?).bind fun child => child.descend? rest

def withChild (i : Instance) (name : String) (place : Nat) (child : Instance) : Instance :=
  match i.accessors.get? name with
  | some (.iterating anchor view children) =>
    i.withAccessor name (.iterating anchor view (children.set place child))
  | _ => i

def replaceAt (i : Instance) (new : Instance) : List (String × Nat) → Instance
  | [] => new
  | (name, place) :: rest =>
    match (i.children name)[place]? with
    | some child => i.withChild name place (child.replaceAt new rest)
    | none => i

end Instance

namespace Document

def descend? (d : Document) (id : NodeId) : List Nat → Option NodeId
  | [] => some id
  | place :: rest => ((d.children id)[place]?).bind fun child => d.descend? child rest

end Document

namespace NodeEdit

def apply (d : Document) (id : NodeId) : NodeEdit → Document × EditReply
  | .remove => (Edit.remove id).apply d
  | .detach => (Edit.detach id).apply d
  | .setAttribute name value => (Edit.setAttribute id name value).apply d
  | .removeAttribute name => (Edit.removeAttribute id name).apply d
  | .setText value => (Edit.setText id value).apply d
  | .setControlValue value => (Edit.setControlValue id value).apply d
  | .appendElement name => appended id (d.create (.element name))
  | .appendText value => appended id (d.create (.text value))
where
  appended (id : NodeId) (r : Document × NodeId) : Document × EditReply :=
    (r.1.append id r.2, .done)

end NodeEdit

namespace Session

def start (templates : List Template) : Session := ⟨templates, [], []⟩

/-- The addressed instance with its document. -/
def locate? (s : Session) (a : Address) : Option (Resident × Instance × Document) :=
  match s.residents[a.index]? with
  | none => none
  | some r =>
    match r.self.descend? a.steps, s.documents[r.document]? with
    | some i, some d => some (r, i, d)
    | _, _ => none

/-- The session with the addressed instance and its document changed. -/
def store (s : Session) (a : Address) (r : Resident) (i : Instance) (d : Document) : Session :=
  { s with
    documents := s.documents.set r.document d
    residents := s.residents.set a.index { r with self := r.self.replaceAt i a.steps } }

/-- The session with one more instance in a new document. -/
def settle (s : Session) (d : Document) (i : Instance) : Session × Reply :=
  ({ s with
      documents := s.documents ++ [d]
      residents := s.residents ++ [⟨s.documents.length, i⟩] }, .number s.residents.length)

/-- The blueprint of a template, which the session now keeps. -/
def blueprint? (s : Session) (n : Nat) : Option (Session × Except EngineError Blueprint × Log) :=
  (s.templates[n]?).map fun t =>
    let (t, r, log) := t.blueprint
    ({ s with templates := s.templates.set n t }, r, log)

/-- A command on an instance that leaves it and its document changed. -/
def act (s : Session) (a : Address) (f : Stage → Instance → Stage × Instance × Reply) :
    Session × Reply × Log :=
  match s.locate? a with
  | none => (s, .noSuchThing, [])
  | some (r, i, d) =>
    let (stage, i, reply) := f ⟨d, []⟩ i
    (s.store a r i stage.document, reply, stage.log)

/-- A command on an instance with the blueprint of a template. -/
def actWith (s : Session) (a : Address) (n : Nat)
    (f : Stage → Instance → Blueprint → Stage × Instance × Reply) : Session × Reply × Log :=
  match s.locate? a with
  | none => (s, .noSuchThing, [])
  | some _ =>
    match s.blueprint? n with
    | none => (s, .noSuchThing, [])
    | some (s, .error e, log) => (s, .failed e, log)
    | some (s, .ok b, log) => s.act a fun stage i => f { stage with log := log } i b

/-- What an outcome answers. -/
def settled (o : Outcome) : Stage × Instance × Reply :=
  match o.error with
  | none => (o.stage, o.self, .done)
  | some e => (o.stage, o.self, .failed e)

def make (s : Session) (n : Nat) (className : Option String) (data : Option Json) :
    Session × Reply × Log :=
  match s.templates[n]?, s.blueprint? n with
  | some t, some (s, .ok b, log) =>
    match Instance.instantiate t.registry ⟨.empty, log⟩ b className data with
    | (stage, .ok i) =>
      let (s, reply) := s.settle stage.document i
      (s, reply, stage.log)
    | (stage, .error e) => (s, .failed e, stage.log)
  | _, some (s, .error e, log) => (s, .failed e, log)
  | _, _ => (s, .noSuchThing, [])

def makeInto (s : Session) (n : Nat) (a : Address) (className : Option String)
    (data : Option Json) : Session × Reply × Log :=
  match s.locate? a with
  | none => (s, .noSuchThing, [])
  | some (r, i, d) =>
    match s.blueprint? n with
    | none => (s, .noSuchThing, [])
    | some (s, .error e, log) => (s, .failed e, log)
    | some (s, .ok b, log) =>
      match Instance.instantiate i.registry ⟨d, log⟩ b className data with
      | (stage, .ok i) =>
        ({ s with
            documents := s.documents.set r.document stage.document
            residents := s.residents ++ [⟨r.document, i⟩] },
          .number s.residents.length, stage.log)
      | (stage, .error e) =>
        ({ s with documents := s.documents.set r.document stage.document }, .failed e, stage.log)

def host (s : Session) (text className : String) (registry : Registry) : Session × Reply :=
  match (parse text Config.standard.sourceUrl false).roots with
  | [] => (s, .noSuchThing)
  | t :: _ =>
    match registry.create className with
    | .error e => (s, .failed e)
    | .ok component =>
      let (d, root) := Document.empty.graft t
      s.settle d (.new root className component registry)

/-- The session after a command, the answer, and what was said. -/
def step (s : Session) : Command → Session × Reply × Log
  | .make n className data => s.make n className data
  | .makeInto n a className data => s.makeInto n a className data
  | .host text className registry =>
    let (s, reply) := s.host text className registry
    (s, reply, [])
  | .set a name v => s.act a fun stage i => settled (i.set stage name v)
  | .configure a data =>
    s.act a fun stage i =>
      let (stage, i) := i.configure stage data
      (stage, i, .done)
  | .get a name =>
    match s.locate? a with
    | some (_, i, _) => (s, .value (i.get? name), [])
    | none => (s, .noSuchThing, [])
  | .has a name =>
    match s.locate? a with
    | some (_, i, _) => (s, .flag (i.hasProperty name), [])
    | none => (s, .noSuchThing, [])
  | .extend a n =>
    s.actWith a n fun stage i b =>
      let (o, root) := i.extend stage b
      match o.error with
      | none =>
        (o.stage, o.self, .position ((o.stage.document.children o.self.root).idxOf? root))
      | some e => (o.stage, o.self, .failed e)
  | .bind a n node =>
    s.actWith a n fun stage i b =>
      match stage.document.descend? i.root node with
      | none => (stage, i, .noSuchThing)
      | some id =>
        let (stage, i, found) := i.bind stage b id
        (stage, i, .number found)
  | .edit a node change =>
    s.act a fun stage i =>
      match stage.document.descend? i.root node with
      | none => (stage, i, .noSuchThing)
      | some id =>
        let (d, reply) := change.apply stage.document id
        (stage.withDocument d, i, .edited reply)
  | .isCompiled n =>
    match s.templates[n]? with
    | some t => (s, .flag t.isCompiled, [])
    | none => (s, .noSuchThing, [])
  | .view n =>
    match s.blueprint? n with
    | some (s, .ok b, log) => (s, .text b.summary.print, log)
    | some (s, .error e, log) => (s, .failed e, log)
    | none => (s, .noSuchThing, [])
  | .apply n data =>
    match s.templates[n]? with
    | some t => (s, .text (t.apply data), [])
    | none => (s, .noSuchThing, [])

def run (s : Session) (commands : List Command) : Session :=
  commands.foldl (fun s c => (s.step c).1) s

end Session

end LiveMarkup
