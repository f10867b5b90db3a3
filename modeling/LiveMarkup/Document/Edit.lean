import LiveMarkup.Document.Walk

namespace LiveMarkup

inductive Edit where
  | createElement (name : String)
  | createText (value : String)
  | createComment (value : String)
  | append (parent child : NodeId)
  | insertBefore (parent child : NodeId) (before : Option NodeId)
  | detach (id : NodeId)
  | remove (id : NodeId)
  | clone (root : NodeId)
  | importFrom (source : Document) (root : NodeId)
  | setAttribute (id : NodeId) (name value : String)
  | setAttributeAt (id : NodeId) (index : Nat) (value : String)
  | renameAttributeAt (id : NodeId) (index : Nat) (name : String)
  | removeAttribute (id : NodeId) (name : String)
  | setText (id : NodeId) (value : String)
  | setControlValue (id : NodeId) (value : String)

/-- What an edit gives back. -/
inductive EditReply where
  | done
  | node (id : Option NodeId)
  | flag (changed : Bool)
  | value (value : Option String)

namespace Edit

def apply (d : Document) : Edit → Document × EditReply
  | .createElement name => created (d.create (.element name))
  | .createText value => created (d.create (.text value))
  | .createComment value => created (d.create (.comment value))
  | .append parent child => (d.append parent child, .done)
  | .insertBefore parent child before => (d.insertBefore parent child before, .done)
  | .detach id => (d.detach id, .done)
  | .remove id => (d.remove id, .done)
  | .clone root => copied (d.clone root)
  | .importFrom source root => copied (d.importFrom source root)
  | .setAttribute id name value => (d.setAttribute id name value, .done)
  | .setAttributeAt id index value => flagged (d.setAttributeAt id index value)
  | .renameAttributeAt id index name => flagged (d.renameAttributeAt id index name)
  | .removeAttribute id name => removed (d.removeAttribute id name)
  | .setText id value => flagged (d.setText id value)
  | .setControlValue id value => flagged (d.setControlValue id value)
where
  created (r : Document × NodeId) : Document × EditReply := (r.1, .node (some r.2))
  copied (r : Document × Option NodeId) : Document × EditReply := (r.1, .node r.2)
  flagged (r : Document × Bool) : Document × EditReply := (r.1, .flag r.2)
  removed (r : Document × Option String) : Document × EditReply := (r.1, .value r.2)

def run (d : Document) (edits : List Edit) : Document := edits.foldl (fun d e => (e.apply d).1) d

end Edit

end LiveMarkup
