import LiveMarkup.Proofs.Document.Ancestry
import LiveMarkup.Proofs.Document.Freeing
import LiveMarkup.Proofs.Markup.Grammar

/-!
# Traversals

Nodes are listed and markup is written with a stack of what is still to be done, so that no depth of
nesting is too much. In a forest this gives what the recursion over the tree below a node gives: a node
comes before those below it, and all that is below one child before the next child. The end tag of an
element waits below its children, and is due when it is the innermost element that is still open.
-/

namespace LiveMarkup

namespace Document

variable {d : Document} {parent : Option NodeId} {s : Shape}

/-! ### Writing with a stack -/

/-- A piece of work on the markup. A node that is `raw` stands directly inside a raw element. -/
inductive WriteStep where
  | node (id : NodeId) (raw : Bool)
  | endTag (id : NodeId) (name : String)
deriving DecidableEq

namespace WriteStep

/-- What the step itself writes. -/
def text (d : Document) : WriteStep → String
  | .node id raw =>
    match d.label? id with
    | some ⟨.text value, _, _⟩ => if raw then value else escapeText value
    | some ⟨.comment value, _, _⟩ => "<!--" ++ value ++ "-->"
    | some ⟨.element name, attributes, _⟩ => renderStartTag name attributes
    | none => ""
  | .endTag _ name => renderEndTag name

/-- The work that the step leaves. -/
def next (d : Document) : WriteStep → List WriteStep
  | .node id _ =>
    match d.label? id with
    | some ⟨.element name, _, _⟩ =>
      if isVoid name then []
      else (d.children id).map (.node · (tagContent name == .rawText)) ++ [.endTag id name]
    | _ => []
  | .endTag _ _ => []

end WriteStep

def workOff (d : Document) : Nat → List WriteStep → List WriteStep
  | 0, _ => []
  | _, [] => []
  | steps + 1, w :: todo => w :: d.workOff steps (w.next d ++ todo)

/-- All that is done for the markup of a node. Each node is met once, and may leave one end tag. -/
def writing (d : Document) (raw : Bool) (id : NodeId) : List WriteStep :=
  d.workOff (2 * d.slots.size) [.node id raw]

/-- The markup of a node and all nodes below it, each piece at the end of what was written before. -/
def serialize (d : Document) (raw : Bool) (id : NodeId) : String :=
  String.join ((d.writing raw id).map (WriteStep.text d))

/-- The elements that are open after the work, the innermost one first. There is no result if a node
is written anywhere but directly inside its parent, or an end tag closes anything but the innermost
open element. -/
def openAfter (d : Document) : List NodeId → List WriteStep → Option (List NodeId)
  | opened, [] => some opened
  | opened, .node id raw :: done =>
    if ∀ p ∈ opened.head?, d.parent? id = some p then
      d.openAfter (if (WriteStep.node id raw).next d = [] then opened else id :: opened) done
    else none
  | opened, .endTag id name :: done =>
    if opened.head? = some id ∧ (d.label? id).map Label.content = some (.element name) then
      d.openAfter opened.tail done
    else none

theorem openAfter_append (opened : List NodeId) (ws us : List WriteStep) :
    d.openAfter opened (ws ++ us) = (d.openAfter opened ws).bind (d.openAfter · us) := by
  induction ws generalizing opened with
  | nil => rfl
  | cons w ws ih =>
    cases w with
    | node id raw =>
      rw [List.cons_append, openAfter, openAfter, ih]
      split <;> rfl
    | endTag id name =>
      rw [List.cons_append, openAfter, openAfter, ih]
      split <;> rfl

/-! ### Work that is done -/

inductive WorksOff (d : Document) : List WriteStep → List WriteStep → Prop
  | nil : WorksOff d [] []
  | cons {w : WriteStep} {todo done : List WriteStep} (h : WorksOff d (w.next d ++ todo) done) :
    WorksOff d (w :: todo) (w :: done)

/-- What is on top of the stack is done before anything below it is looked at. -/
theorem WorksOff.append {todo done todo' done' : List WriteStep} (h : d.WorksOff todo done)
    (h' : d.WorksOff todo' done') : d.WorksOff (todo ++ todo') (done ++ done') := by
  induction h with
  | nil => exact h'
  | cons _ ih => exact .cons (by rwa [List.append_assoc] at ih)

theorem WorksOff.workOff_eq {todo done : List WriteStep} (h : d.WorksOff todo done) {steps : Nat}
    (hsteps : done.length ≤ steps) : d.workOff steps todo = done := by
  induction h generalizing steps with
  | nil => cases steps <;> rfl
  | cons _ ih =>
    obtain ⟨steps, rfl⟩ := Nat.exists_eq_add_of_lt (Nat.lt_of_lt_of_le (Nat.succ_pos _) hsteps)
    rw [Nat.zero_add, workOff, ih (by simpa using hsteps)]

/-- The work `todo` on children of `parent` writes the markup of `nodes` nodes, and closes what it
opens. -/
structure Writes (d : Document) (parent : Option NodeId) (todo : List WriteStep) (nodes : Nat)
    (markup : String) (done : List WriteStep) : Prop where
  worksOff : d.WorksOff todo done
  length_le : done.length ≤ 2 * nodes
  text : String.join (done.map (WriteStep.text d)) = markup
  nested : ∀ opened : List NodeId, (∀ p ∈ opened.head?, parent = some p) →
    d.openAfter opened done = some opened

theorem Writes.nil : d.Writes parent [] 0 "" [] :=
  ⟨.nil, Nat.le_refl 0, rfl, fun _ _ => rfl⟩

theorem Writes.append {todo todo' done done' : List WriteStep} {m n : Nat} {a b : String}
    (h : d.Writes parent todo m a done) (h' : d.Writes parent todo' n b done') :
    d.Writes parent (todo ++ todo') (m + n) (a ++ b) (done ++ done') where
  worksOff := h.worksOff.append h'.worksOff
  length_le := by
    have := h.length_le
    have := h'.length_le
    rw [List.length_append]
    omega
  text := by rw [List.map_append, String.join_append, h.text, h'.text]
  nested opened hopened := by
    rw [openAfter_append, h.nested opened hopened, Option.bind_some, h'.nested opened hopened]

theorem Writes.leaf {id : NodeId} {raw : Bool} {n : Nat} {markup : String} (hn : 0 < n)
    (hnext : (WriteStep.node id raw).next d = []) (hparent : d.parent? id = parent)
    (hmarkup : (WriteStep.node id raw).text d = markup) :
    d.Writes parent [.node id raw] n markup [.node id raw] where
  worksOff := .cons (by rw [hnext]; exact .nil)
  length_le := by rw [List.length_singleton]; omega
  text := by rw [List.map_singleton, String.join_cons, String.join_nil, String.append_empty, hmarkup]
  nested opened hopened := by
    rw [openAfter, if_pos fun p hp => hparent.trans (hopened p hp), if_pos hnext, openAfter]

/-- The children are written while the element is the innermost that is open, and then its end tag is
on top of the stack. -/
theorem Writes.element {id : NodeId} {name : String} {attributes : Table String}
    {control : Option String} {n : Nat} {markup : String} {done : List WriteStep}
    (hlabel : d.label? id = some ⟨.element name, attributes, control⟩) (hvoid : isVoid name = false)
    (hparent : d.parent? id = parent) (raw : Bool)
    (h : d.Writes (some id) ((d.children id).map (.node · (tagContent name == .rawText))) n markup
      done) :
    d.Writes parent [.node id raw] (1 + n)
      (renderStartTag name attributes ++ markup ++ renderEndTag name)
      (.node id raw :: (done ++ [.endTag id name])) := by
  have hnext : (WriteStep.node id raw).next d =
      (d.children id).map (.node · (tagContent name == .rawText)) ++ [.endTag id name] := by
    rw [WriteStep.next, hlabel]
    exact if_neg (by simp [hvoid])
  have hend : d.WorksOff [.endTag id name] [.endTag id name] := .cons .nil
  refine ⟨.cons ?_, ?_, ?_, fun opened hopened => ?_⟩
  · rw [hnext, List.append_nil]
    exact h.worksOff.append hend
  · have := h.length_le
    simp only [List.length_cons, List.length_append, List.length_nil]
    omega
  · have hstart : (WriteStep.node id raw).text d = renderStartTag name attributes := by
      rw [WriteStep.text, hlabel]
    rw [List.map_cons, String.join_cons, hstart, List.map_append, String.join_append, h.text,
      List.map_singleton, String.join_cons, String.join_nil, String.append_empty, WriteStep.text,
      String.append_assoc]
  · have hinside : d.openAfter (id :: opened) done = some (id :: opened) :=
      h.nested _ fun p hp => by simpa using hp
    have hopens : ¬ (WriteStep.node id raw).next d = [] := by simp [hnext]
    rw [openAfter, if_pos fun p hp => hparent.trans (hopened p hp), if_neg hopens, openAfter_append,
      hinside, Option.bind_some, openAfter, if_pos ⟨rfl, by rw [hlabel]; rfl⟩, List.tail_cons,
      openAfter]

theorem Writes.siblings {id : NodeId} {raw : Bool} {cs : List Shape}
    (h : ∀ c ∈ cs, ∃ done, d.Writes (some id) [.node c.id raw] c.ids.length
      ((d.treeAt c).renderIn raw) done) :
    ∃ done, d.Writes (some id) ((cs.map Shape.id).map (.node · raw)) (cs.flatMap Shape.ids).length
      (Tree.renderAll raw (cs.map d.treeAt)) done := by
  induction cs with
  | nil => exact ⟨[], .nil⟩
  | cons c cs ih =>
    obtain ⟨first, hfirst⟩ := h c List.mem_cons_self
    obtain ⟨rest, hrest⟩ := ih fun c' hc' => h c' (List.mem_cons_of_mem _ hc')
    refine ⟨first ++ rest, ?_⟩
    have htrees : (c :: cs).map d.treeAt = d.treeAt c :: cs.map d.treeAt := List.map_cons
    rw [List.flatMap_cons, List.length_append, htrees, Tree.renderAll]
    exact hfirst.append hrest

theorem treeAt_of_label? {l : Label} (h : d.label? s.id = some l) :
    d.treeAt s = .node l (s.children.map d.treeAt) := by
  obtain ⟨id, cs⟩ := s
  change d.label? id = some l at h
  rw [treeAt_node, labelAt, h, Option.getD_some, Shape.children]

theorem Holds.exists_writes (h : d.Holds parent s) (raw : Bool) :
    ∃ done, d.Writes parent [.node s.id raw] s.ids.length ((d.treeAt s).renderIn raw) done := by
  induction h generalizing raw with
  | @node parent id cs l read _ ih =>
    obtain ⟨content, attributes, control⟩ := l
    have hlabel : d.label? id = some ⟨content, attributes, control⟩ := label?_of_node? read
    have hparent : d.parent? id = parent := parent?_of_node? read
    have hchildren : d.children id = cs.map Shape.id := children_of_node? read
    have hids : 0 < (Shape.node id cs).ids.length := by simp [Shape.ids_node]
    rw [treeAt_of_label? (s := .node id cs) hlabel]
    cases content with
    | text value =>
      exact ⟨_, .leaf hids (by rw [WriteStep.next, Shape.id, hlabel]) hparent
        (by rw [WriteStep.text, Shape.id, hlabel, Tree.renderIn])⟩
    | comment value =>
      exact ⟨_, .leaf hids (by rw [WriteStep.next, Shape.id, hlabel]) hparent
        (by rw [WriteStep.text, Shape.id, hlabel, Tree.renderIn])⟩
    | element name =>
      rw [Tree.renderIn]
      split
      · rename_i hvoid
        exact ⟨_, .leaf hids (by rw [WriteStep.next, Shape.id, hlabel]; exact if_pos hvoid) hparent
          (by rw [WriteStep.text, Shape.id, hlabel])⟩
      · rename_i hvoid
        obtain ⟨done, hdone⟩ := Writes.siblings fun c hc => ih c hc (tagContent name == .rawText)
        rw [← hchildren] at hdone
        rw [Shape.ids_node, List.length_cons, Nat.add_comm]
        exact ⟨_, .element hlabel (by simpa using hvoid) hparent raw hdone⟩

/-- The number of slots bounds the work. -/
theorem Holds.writes (h : d.Holds parent s) (hn : s.ids.Nodup) (raw : Bool) :
    d.Writes parent [.node s.id raw] s.ids.length ((d.treeAt s).renderIn raw)
      (d.writing raw s.id) := by
  obtain ⟨done, hdone⟩ := h.exists_writes raw
  have hsize := h.length_ids_le hn
  have hlen := hdone.length_le
  rwa [writing, hdone.worksOff.workOff_eq (by omega)]

theorem Holds.serialize (h : d.Holds parent s) (hn : s.ids.Nodup) (raw : Bool) :
    d.serialize raw s.id = (d.treeAt s).renderIn raw :=
  (h.writes hn raw).text

/-! ### Recursion over the forest -/

/-- The character data of a text. Other nodes have no text of their own. -/
def ownText (d : Document) (id : NodeId) : String :=
  match d.label? id with
  | some ⟨.text value, _, _⟩ => value
  | _ => ""

theorem textContent_eq (d : Document) (id : NodeId) :
    d.textContent id = String.join ((d.descendants id).map d.ownText) := by
  rw [textContent]
  induction d.descendants id with
  | nil => rfl
  | cons x xs ih =>
    rw [List.map_cons, String.join_cons, ← ih, ownText]
    rcases hlabel : d.label? x with _ | ⟨_ | _ | _, _, _⟩ <;>
      simp [hlabel, Content.isText, Content.value?]

theorem join_flatMap {α : Type} (f : α → List String) (xs : List α) :
    String.join (xs.flatMap f) = String.join (xs.map fun x => String.join (f x)) := by
  induction xs with
  | nil => rfl
  | cons x xs ih => rw [List.flatMap_cons, String.join_append, ih, List.map_cons, String.join_cons]

theorem isRaw_eq (name : String) :
    (tagContent name == .rawText) = ["script", "style"].contains name.toLower := by
  unfold tagContent
  split <;> simp_all

/-- What lists the nodes below a node, joins their texts and writes their markup does it as a
recursion over the children does. -/
structure Traversed (d : Document) (id : NodeId) : Prop where
  preorder : d.descendants id = id :: (d.children id).flatMap d.descendants
  once : (d.descendants id).Nodup
  mem_iff : ∀ x, x ∈ d.descendants id ↔ Relation.ReflTransGen d.IsParent x id
  texts : d.textContent id = String.join ((d.descendants id).map d.ownText)
  textContent : d.textContent id =
    d.ownText id ++ String.join ((d.children id).map d.textContent)
  render : d.render id = d.serialize false id
  /-- No step is left undone. -/
  finished : ∀ raw, d.WorksOff [.node id raw] (d.writing raw id)
  text : ∀ value attributes control, d.label? id = some ⟨.text value, attributes, control⟩ →
    ∀ raw, d.serialize raw id = if raw then value else escapeText value
  comment : ∀ value attributes control, d.label? id = some ⟨.comment value, attributes, control⟩ →
    ∀ raw, d.serialize raw id = "<!--" ++ value ++ "-->"
  element : ∀ name attributes control,
    d.label? id = some ⟨.element name, attributes, control⟩ →
      ∀ raw, d.serialize raw id =
        renderStartTag name attributes ++
          (if isVoid name then ""
          else String.join ((d.children id).map
            (d.serialize (["script", "style"].contains name.toLower))) ++ renderEndTag name)
  /-- Each end tag closes the element that it was left by. -/
  closed : ∀ raw, d.openAfter [] (d.writing raw id) = some []

theorem Holds.serialize_children (h : d.Holds parent s) (hn : s.ids.Nodup) (raw : Bool) :
    Tree.renderAll raw (s.children.map d.treeAt) =
      String.join ((d.children s.id).map (d.serialize raw)) := by
  obtain ⟨id, cs⟩ := s
  rw [Tree.renderAll_eq_join, h.children, List.map_map, List.map_map]
  congr 1
  exact List.map_congr_left fun c hc => ((h.child hc).serialize (Shape.nodup_of_mem hn hc) raw).symm

theorem Holds.descendants_children (h : d.Holds parent s) (hn : s.ids.Nodup) :
    d.descendants s.id = s.id :: (d.children s.id).flatMap d.descendants := by
  obtain ⟨id, cs⟩ := s
  have hheld : ∀ c ∈ cs, d.descendants c.id = c.ids := fun c hc =>
    (h.child hc).descendants (Shape.nodup_of_mem hn hc)
  rw [h.descendants hn, h.children, Shape.ids_node, Shape.id, Shape.children, List.flatMap_map,
    List.flatMap_congr hheld]

theorem IsForest.traversed (h : d.IsForest) {id : NodeId} (hlive : d.contains id = true) :
    d.Traversed id := by
  obtain ⟨s, q, rfl, hs, hn⟩ := h.exists_holds hlive
  have hpre := hs.descendants_children hn
  refine ⟨hpre, ?_, fun x => ?_, d.textContent_eq s.id, ?_, ?_, fun raw => ?_, ?_, ?_, ?_,
    fun raw => ?_⟩
  · rwa [hs.descendants hn]
  · rw [hs.descendants hn, hs.mem_ids_iff, h.toLinked.under_iff]
  · rw [textContent_eq, hpre, List.map_cons, String.join_cons, List.map_flatMap, join_flatMap,
      List.map_congr_left fun c _ => d.textContent_eq c]
  · rw [hs.render hn, hs.serialize hn, Tree.render]
  · exact (hs.writes hn raw).worksOff
  · intro value attributes control hlabel raw
    rw [hs.serialize hn, treeAt_of_label? hlabel, Tree.renderIn]
  · intro value attributes control hlabel raw
    rw [hs.serialize hn, treeAt_of_label? hlabel, Tree.renderIn]
  · intro name attributes control hlabel raw
    rw [hs.serialize hn, treeAt_of_label? hlabel, Tree.renderIn, hs.serialize_children hn, isRaw_eq]
    split
    · rw [String.append_empty]
    · rw [String.append_assoc]
  · exact (hs.writes hn raw).nested [] fun p hp => by cases hp

/-- The same text in a paragraph and in a script, with a line break between them. -/
def scriptDocument : Document :=
  (empty.graft (.node (.element "div") [.node (.element "p") [.leaf (.text "a<b")],
    .leaf (.element "br"), .node (.element "script") [.leaf (.text "a<b")]])).1

theorem traversed_scriptDocument :
    scriptDocument.IsForest ∧ scriptDocument.contains 0 = true ∧ scriptDocument.Traversed 0 ∧
      scriptDocument.descendants 0 = [0, 1, 2, 3, 4, 5] ∧ scriptDocument.textContent 0 = "a<ba<b" ∧
      scriptDocument.serialize false 0 =
        "<div><p>a&lt;b</p><br><script>a<b</script></div>" := by
  have hforest : scriptDocument.IsForest := isForest_empty.graft tidy_empty _
  have hlive : scriptDocument.contains 0 = true := rfl
  exact ⟨hforest, hlive, hforest.traversed hlive, by decide, by decide, by decide +kernel⟩

end Document

end LiveMarkup
