import LiveMarkup.Proofs.Document.Graft
import LiveMarkup.Proofs.Markup.NormalTrees
import LiveMarkup.Proofs.Markup.TokenGrammar

/-!
# The document of a source

Two builders go through the tokens of a source, one that writes nodes into a document and one that
gathers trees. After each item the document is that of the trees with the open elements, written in
document order. So at the end it is the document of the trees, handle for handle.
-/

namespace LiveMarkup

namespace Document

variable {d : Document} {p : NodeId} {l : Label}

theorem eq_of_node? {d' : Document} (hfree : d.free = d'.free)
    (hsize : d.slots.size = d'.slots.size) (hnodes : ∀ x, d.node? x = d'.node? x) : d = d' := by
  obtain ⟨slots, free⟩ := d
  obtain ⟨slots', free'⟩ := d'
  obtain rfl : free = free' := hfree
  congr 1
  refine Array.ext hsize fun i hi hi' => ?_
  have hi₁ : i < slots.size := hi
  have hi₂ : i < slots'.size := hi'
  simpa [node?, hi₁, hi₂] using hnodes i

theorem snd_alloc (d : Document) (n m : Node) : (d.alloc n).2 = (d.alloc m).2 := by
  unfold alloc
  split <;> rfl

theorem Tidy.modify_alloc (h : d.Tidy) (n : Node) (f : Node → Node) :
    (d.alloc n).1.modify (d.alloc n).2 f = (d.alloc (f n)).1 := by
  have hfree : (d.alloc n).1.free = (d.alloc (f n)).1.free := by
    unfold Document.alloc
    split <;> rfl
  have hsize : (d.alloc n).1.slots.size = (d.alloc (f n)).1.slots.size := by
    unfold Document.alloc
    split <;> simp
  refine eq_of_node? (by simpa using hfree) (by simpa using hsize) fun x => ?_
  rw [node?_modify, h.node?_alloc n, h.node?_alloc n, h.node?_alloc (f n), snd_alloc d (f n) n]
  split <;> simp

theorem Tidy.modifyLabel_create (h : d.Tidy) (f : Label → Label) :
    (d.create l).1.modifyLabel (d.create l).2 f = (d.create (f l)).1 := h.modify_alloc _ _

theorem graftBelow_leaf (parent : Option NodeId) (d : Document) (l : Label) :
    graftBelow parent (.leaf l) d = (d.sprout parent l, (d.create l).2) := by
  rw [Tree.leaf, graftBelow_node, graftAllBelow, create, snd_alloc d _ ⟨l, none, []⟩]

theorem Tidy.modifyLabel_sprout (h : d.Tidy) {parent : Option NodeId}
    (hp : ∀ p, parent = some p → ∃ n, d.node? p = some n) (f : Label → Label) :
    (d.sprout parent l).modifyLabel (d.create l).2 f = d.sprout parent (f l) := by
  have hsame : ∀ l' : Label, (d.alloc ⟨l', parent, []⟩).2 = (d.create l).2 := fun l' =>
    snd_alloc d _ _
  have hfree : (d.sprout parent l).free = (d.sprout parent (f l)).free ∧
      (d.sprout parent l).slots.size = (d.sprout parent (f l)).slots.size := by
    unfold Document.sprout Document.alloc
    cases parent <;> cases d.free <;> simp
  refine eq_of_node? (by simpa [modifyLabel] using hfree.1) (by simpa [modifyLabel] using hfree.2)
    fun x => ?_
  rw [modifyLabel, node?_modify, h.node?_sprout hp, h.node?_sprout hp, h.node?_sprout hp, hsame, hsame]
  split <;> simp

theorem Tidy.append_create (h : d.Tidy) (hp : d.contains p = true) :
    (d.create l).1.append p (d.create l).2 = d.sprout (some p) l := by
  obtain ⟨n, hn⟩ := contains_iff.mp hp
  have hread := h.node?_alloc ⟨l, none, []⟩
  have hne : p ≠ (d.alloc ⟨l, none, []⟩).2 := fun e => by
    rw [e, h.node?_snd_alloc] at hn
    cases hn
  have hchild : (d.create l).1.node? (d.create l).2 = some ⟨l, none, []⟩ := by
    rw [Document.create, hread, if_pos rfl]
  have hparent : (d.create l).1.contains p = true := by
    rw [contains_iff]
    exact ⟨n, by rw [Document.create, hread, if_neg hne, hn]⟩
  have hlive : (d.create l).1.contains (d.create l).2 = true := contains_iff.mpr ⟨_, hchild⟩
  have hdetach : (d.create l).1.detach (d.create l).2 = (d.create l).1 := by
    rw [Document.detach, parent?_of_node? hchild]
  have hne' : ¬ (p = (d.create l).2) := hne
  rw [Document.append, Document.insertBefore, hparent, hlive]
  simp only [Bool.not_true, Bool.or_false, decide_eq_true_eq, if_neg hne', hdetach]
  rw [Document.create, h.modify_alloc, Document.sprout]
  dsimp only
  rw [snd_alloc d ⟨l, none, []⟩ ⟨l, some p, []⟩]
  rfl

end Document

def OpenElement.label (e : OpenElement) : Label := ⟨.element e.name, e.attributes, none⟩

namespace TreeBuilder

/-! ### Writing trees -/

variable {b w : TreeBuilder} {t : Tree} {l : Label} {e : OpenElement}

def innermost? (b : TreeBuilder) : Option NodeId := b.opened.head?.map OpenTag.id

def addTree (b : TreeBuilder) (t : Tree) : TreeBuilder :=
  let (d, id) := Document.graftBelow b.innermost? t b.document
  { b with document := d, roots := if b.opened.isEmpty then b.roots ++ [id] else b.roots }

def enter (b : TreeBuilder) (e : OpenElement) : TreeBuilder :=
  { b.addTree (.leaf e.label) with
    opened := ⟨(b.document.create e.label).2, e.name, e.span⟩ :: b.opened }

structure Settled (b : TreeBuilder) : Prop where
  tidy : b.document.Tidy
  live : ∀ e ∈ b.opened, b.document.contains e.id = true
  pending : b.pending = none
  pendingName : b.pendingName = none

@[simp] theorem opened_addTree (b : TreeBuilder) (t : Tree) : (b.addTree t).opened = b.opened := rfl

@[simp] theorem opened_foldl_addTree (b : TreeBuilder) (ts : List Tree) :
    (ts.foldl addTree b).opened = b.opened := by
  induction ts generalizing b with
  | nil => rfl
  | cons t ts ih => rw [List.foldl_cons, ih, opened_addTree]

@[simp] theorem errors_foldl_addTree (b : TreeBuilder) (ts : List Tree) :
    (ts.foldl addTree b).errors = b.errors := by
  induction ts generalizing b with
  | nil => rfl
  | cons t ts ih => exact ih _

theorem foldl_addTree_of_opened {o : OpenTag} {rest : List OpenTag} (h : b.opened = o :: rest)
    (ts : List Tree) :
    ts.foldl addTree b = { b with document := Document.graftAllBelow o.id ts b.document } := by
  induction ts generalizing b with
  | nil => rfl
  | cons t ts ih =>
    have hrest : (b.addTree t).opened = o :: rest := h
    rw [List.foldl_cons, ih hrest, Document.graftAllBelow, addTree, innermost?, h]
    rfl

theorem addTree_tree (b : TreeBuilder) (e : OpenElement) :
    b.addTree e.tree = { e.children.reverse.foldl addTree (b.enter e) with opened := b.opened } := by
  rw [foldl_addTree_of_opened rfl, enter, addTree, addTree, OpenElement.tree, Document.graftBelow_node,
    Document.graftBelow_leaf, OpenElement.label, Document.create,
    Document.snd_alloc _ ⟨_, none, []⟩ ⟨_, b.innermost?, []⟩]

namespace Settled

theorem exists_innermost (h : b.Settled) {p : NodeId} (hp : b.innermost? = some p) :
    ∃ n, b.document.node? p = some n := by
  obtain ⟨e, he, rfl⟩ := Option.map_eq_some_iff.mp hp
  exact Document.contains_iff.mp (h.live e (List.mem_of_mem_head? he))

theorem grafts (h : b.Settled) (t : Tree) :
    ∃ s, Document.Grafts b.document (b.addTree t).document b.innermost? [s] [t] ∧
      s.id = (Document.graftBelow b.innermost? t b.document).2 := by
  exact Document.graftBelow_grafts t h.tidy _ fun p hp => h.exists_innermost hp

theorem addTree (h : b.Settled) (t : Tree) : (b.addTree t).Settled := by
  obtain ⟨s, hs, -⟩ := h.grafts t
  refine ⟨hs.tidy, fun e he => ?_, h.pending, h.pendingName⟩
  obtain ⟨n, hn⟩ := Document.contains_iff.mp (h.live e he)
  exact Document.contains_iff.mpr (hs.live hn)

theorem foldl_addTree (h : b.Settled) (ts : List Tree) : (ts.foldl TreeBuilder.addTree b).Settled := by
  induction ts generalizing b with
  | nil => exact h
  | cons t ts ih => exact ih (h.addTree t)

theorem enter (h : b.Settled) (e : OpenElement) : (b.enter e).Settled := by
  obtain ⟨s, hs, hid⟩ := h.grafts (.leaf e.label)
  have hleaf := h.addTree (.leaf e.label)
  refine ⟨hleaf.tidy, fun o ho => ?_, hleaf.pending, hleaf.pendingName⟩
  rcases List.mem_cons.mp ho with rfl | ho
  · rw [Document.graftBelow_leaf] at hid
    rw [← hid]
    exact (hs.holds s List.mem_cons_self).contains
  · exact hleaf.live o ho

/-! ### What a token does between two items -/

theorem finishStartTag (h : b.Settled) (selfClosing : Bool) : b.finishStartTag selfClosing = b := by
  obtain ⟨document, roots, opened, errors, pending, pendingName⟩ := b
  obtain rfl : pending = none := h.pending
  obtain rfl : pendingName = none := h.pendingName
  rfl

theorem addLeaf (h : b.Settled) (l : Label) : b.addLeaf l = b.addTree (.leaf l) := by
  rw [TreeBuilder.addLeaf, TreeBuilder.addTree, Document.graftBelow_leaf]
  unfold addToParent innermost?
  cases hopened : b.opened with
  | nil => simp [Document.sprout, Document.create]
  | cons e rest =>
    have hlive : b.document.contains e.id = true := h.live e (by simp [hopened])
    simp [h.tidy.append_create hlive]

theorem siblings_enter (h : b.Settled) (e : OpenElement) : (b.enter e).siblings = [] := by
  have hread := h.tidy.node?_sprout (l := e.label) (fun _ hp => h.exists_innermost hp)
    (b.document.alloc ⟨e.label, b.innermost?, []⟩).2
  rw [if_pos rfl] at hread
  rw [TreeBuilder.enter, siblings, TreeBuilder.addTree, Document.graftBelow_leaf, Document.create,
    Document.snd_alloc _ ⟨_, none, []⟩ ⟨_, b.innermost?, []⟩]
  exact Document.children_of_node? hread

theorem siblings_addTree (h : b.Settled) (t : Tree) :
    ∃ ids, (b.addTree t).siblings = ids ++ [(Document.graftBelow b.innermost? t b.document).2] ∧
      (b.addTree t).document.label? (Document.graftBelow b.innermost? t b.document).2 =
        some t.label := by
  obtain ⟨⟨x, cs⟩, hs, hx⟩ := h.grafts t
  have hlabel : (b.addTree t).document.label? x = some t.label := by
    obtain ⟨l, hread⟩ := (hs.holds _ List.mem_cons_self).read
    have hl : (b.addTree t).document.label? x = some l := Document.label?_of_node? hread
    have htree := congrArg Tree.label (List.cons.inj hs.trees).1
    rw [Document.treeAt_node, Document.labelAt, hl] at htree
    rw [hl]
    exact congrArg some htree
  rw [← hx]
  cases hopened : b.opened with
  | nil => exact ⟨b.roots, by simp [siblings, TreeBuilder.addTree, hopened, hx], hlabel⟩
  | cons e rest =>
    refine ⟨b.document.children e.id, ?_, hlabel⟩
    obtain ⟨n, hn⟩ := Document.contains_iff.mp (h.live e (by simp [hopened]))
    have hframe := hs.frame e.id (hs.not_mem_of_live hn)
    rw [innermost?, hopened, List.head?_cons, Option.map_some, if_pos rfl, hn, Option.map_some] at hframe
    rw [siblings, opened_addTree, hopened]
    dsimp only
    rw [Document.children_of_node? hframe, Document.children_of_node? hn]
    rfl

theorem addText_of_no_text (h : b.Settled) (value : String)
    (hno : ∀ id ∈ b.siblings.getLast?, b.document.kind? id ≠ some .text) :
    b.addText value = b.addTree (.leaf (.text value)) := by
  have hnone : (b.siblings.getLast?.filter fun id => b.document.kind? id = some .text) = none := by
    rw [Option.filter_eq_none_iff]
    simpa using hno
  rw [TreeBuilder.addText, hnone, ← h.addLeaf]

theorem modifyLabel_addTree (h : b.Settled) (l : Label) (f : Label → Label) :
    { b.addTree (.leaf l) with
      document := (b.addTree (.leaf l)).document.modifyLabel (b.document.create l).2 f } =
      b.addTree (.leaf (f l)) := by
  have hsame : (b.document.create (f l)).2 = (b.document.create l).2 := Document.snd_alloc _ _ _
  rw [TreeBuilder.addTree, TreeBuilder.addTree, Document.graftBelow_leaf, Document.graftBelow_leaf,
    hsame]
  dsimp only
  rw [h.tidy.modifyLabel_sprout fun _ hp => h.exists_innermost hp]

/-- A text joins the one that was written right before it. -/
theorem addText_addTree (h : b.Settled) {before : String} {attributes : Table String}
    {control : Option String} (value : String) :
    (b.addTree (.leaf ⟨.text before, attributes, control⟩)).addText value =
      b.addTree (.leaf ⟨.text (before ++ value), attributes, control⟩) := by
  obtain ⟨ids, hsiblings, hlabel⟩ := h.siblings_addTree (.leaf ⟨.text before, attributes, control⟩)
  have hmodify := h.modifyLabel_addTree ⟨.text before, attributes, control⟩ fun l =>
    { l with content := l.content.withValue (before ++ value) }
  rw [Document.graftBelow_leaf] at hsiblings hlabel
  dsimp only at hsiblings hlabel
  generalize (b.document.create ⟨.text before, attributes, control⟩).2 = id at hsiblings hlabel hmodify
  generalize b.addTree (.leaf ⟨.text before, attributes, control⟩) = w at hsiblings hlabel hmodify ⊢
  have hkind : w.document.kind? id = some .text := by
    rw [Document.kind?, hlabel]
    rfl
  have htext : w.document.text? id = some before := by
    rw [Document.text?, hlabel]
    rfl
  rw [TreeBuilder.addText, hsiblings, List.getLast?_concat, Option.filter_some, hkind]
  simp only [decide_true, if_true]
  rw [htext, Option.getD_some, Document.setText, htext]
  exact hmodify

end Settled

end TreeBuilder

/-! ### What a builder of trees stands for -/

namespace Builder

variable {preserve : Bool} {b : Builder}

def written (b : Builder) : TreeBuilder :=
  b.opened.foldr (fun e w => e.children.reverse.foldl TreeBuilder.addTree (w.enter e))
    (b.roots.reverse.foldl TreeBuilder.addTree (TreeBuilder.start.report b.errors))

theorem settled_written (b : Builder) : b.written.Settled := by
  obtain ⟨opened, roots, errors⟩ := b
  rw [written]
  induction opened with
  | nil =>
    refine TreeBuilder.Settled.foldl_addTree ⟨Document.tidy_empty, ?_, rfl, rfl⟩ _
    exact fun e he => absurd he List.not_mem_nil
  | cons e rest ih => exact (ih.enter e).foldl_addTree _

theorem tags_written (b : Builder) :
    b.written.opened.map (fun o => (o.name, o.span)) = b.opened.map fun e => (e.name, e.span) := by
  obtain ⟨opened, roots, errors⟩ := b
  rw [written]
  induction opened with
  | nil => rw [List.foldr_nil, TreeBuilder.opened_foldl_addTree]; rfl
  | cons e rest ih =>
    rw [List.foldr_cons, TreeBuilder.opened_foldl_addTree, TreeBuilder.enter, List.map_cons, ih]
    rfl

theorem errors_written (b : Builder) : b.written.errors = b.errors := by
  obtain ⟨opened, roots, errors⟩ := b
  rw [written]
  induction opened with
  | nil => rw [List.foldr_nil, TreeBuilder.errors_foldl_addTree]; rfl
  | cons e rest ih =>
    rw [List.foldr_cons, TreeBuilder.errors_foldl_addTree]
    exact ih

theorem written_add (b : Builder) (t : Tree) : (b.add t).written = b.written.addTree t := by
  obtain ⟨_ | ⟨e, rest⟩, roots, errors⟩ := b
  · rw [written, written, add, siblings, withSiblings, List.reverse_cons]
    exact List.foldl_append
  · rw [written, written, add, siblings, withSiblings, List.foldr_cons, List.foldr_cons,
      List.reverse_cons, List.foldl_append]
    rfl

theorem written_closeInnermost (b : Builder) :
    b.closeInnermost.written = { b.written with opened := b.written.opened.tail } := by
  obtain ⟨_ | ⟨e, rest⟩, roots, errors⟩ := b
  · have hnone : (written ⟨[], roots, errors⟩).opened = [] := by
      simpa using tags_written ⟨[], roots, errors⟩
    rw [closeInnermost, hnone, List.tail_nil]
    dsimp only
    rw [← hnone]
  · rw [closeInnermost]
    dsimp only
    rw [written_add, TreeBuilder.addTree_tree]
    have hopen : written ⟨e :: rest, roots, errors⟩ =
        e.children.reverse.foldl TreeBuilder.addTree ((written ⟨rest, roots, errors⟩).enter e) := rfl
    rw [hopen, TreeBuilder.opened_foldl_addTree]
    rfl

theorem written_close (b : Builder) (n : Nat) :
    (b.close n).written = { b.written with opened := b.written.opened.drop n } := by
  induction n generalizing b with
  | zero => rfl
  | succ n ih => rw [close, ih, written_closeInnermost, List.drop_tail]

theorem written_report (b : Builder) (ds : List Diagnostic) :
    (b.report ds).written = b.written.report ds := by
  have hall : ∀ (ts : List Tree) (w : TreeBuilder),
      ts.foldl TreeBuilder.addTree (w.report ds) = (ts.foldl TreeBuilder.addTree w).report ds := by
    intro ts
    induction ts with
    | nil => exact fun w => rfl
    | cons t ts ih => exact fun w => ih (w.addTree t)
  obtain ⟨opened, roots, errors⟩ := b
  rw [written, written, report]
  dsimp only
  have hstart : TreeBuilder.start.report (errors ++ ds) = (TreeBuilder.start.report errors).report ds := by
    simp [TreeBuilder.report]
  rw [hstart, hall]
  induction opened with
  | nil => rfl
  | cons e rest ih =>
    have henter : ∀ w : TreeBuilder, (w.report ds).enter e = (w.enter e).report ds := fun _ => rfl
    rw [List.foldr_cons, List.foldr_cons, ih, henter, hall]

/-! ### One item -/

theorem keepsSpace_written (b : Builder) : b.written.keepsSpace = b.keepsSpace := by
  have htags := b.tags_written
  unfold TreeBuilder.keepsSpace keepsSpace
  cases hw : b.written.opened with
  | nil =>
    rw [hw, List.map_nil, eq_comm, List.map_eq_nil_iff] at htags
    rw [htags]
  | cons o os =>
    rw [hw] at htags
    obtain ⟨e, rest, he, htag, -⟩ := List.map_eq_cons_iff.mp htags.symm
    rw [he]
    exact congrArg (fun p : String × Span => LiveMarkup.keepsSpace p.1) htag.symm

theorem reportUnclosed_written (b : Builder) (n : Nat) :
    b.written.reportUnclosed (b.written.opened.take n) =
      (b.report ((b.opened.take n).reverse.map OpenElement.unclosed)).written := by
  have htags := congrArg (fun ps : List (String × Span) =>
    (ps.take n).reverse.map fun p => TreeBuilder.unclosed p.1 p.2) b.tags_written
  simp only [← List.map_take, ← List.map_reverse, List.map_map, Function.comp_def] at htags
  rw [written_report, TreeBuilder.reportUnclosed, htags]
  rfl

theorem written_closing (preserve : Bool) (b : Builder) (name : String) (span : Span) :
    b.written.endTag name span = (b.push preserve (.closing name span)).written := by
  have hfind : (b.written.opened.findIdx? fun o => sameName o.name name) =
      b.opened.findIdx? fun e => sameName e.name name := by
    have htags := congrArg (List.findIdx? fun p : String × Span => sameName p.1 name) b.tags_written
    rwa [List.findIdx?_map, List.findIdx?_map] at htags
  rw [TreeBuilder.endTag, b.settled_written.finishStartTag, push]
  dsimp only
  rw [hfind]
  cases b.opened.findIdx? fun e => sameName e.name name with
  | none => exact (written_report b _).symm
  | some i =>
    dsimp only
    rw [written_close, reportUnclosed_written, written_report]
    rfl

theorem siblings_written_of_nil (h : b.siblings = []) : b.written.siblings = [] := by
  obtain ⟨_ | ⟨e, rest⟩, roots, errors⟩ := b
  · obtain rfl : roots = [] := h
    rfl
  · have hchildren : e.children = [] := h
    have hopen : written ⟨e :: rest, roots, errors⟩ =
        e.children.reverse.foldl TreeBuilder.addTree ((written ⟨rest, roots, errors⟩).enter e) := rfl
    rw [hopen, hchildren]
    exact (settled_written ⟨rest, roots, errors⟩).siblings_enter e

theorem kind?_getLast_siblings (h : ∀ t ∈ b.siblings.head?, t.isText = false) :
    ∀ id ∈ b.written.siblings.getLast?, b.written.document.kind? id ≠ some .text := by
  cases hs : b.siblings with
  | nil => simp [siblings_written_of_nil hs]
  | cons t ts =>
    have hb : b = (b.withSiblings ts).add t := by
      rw [add_withSiblings, ← hs, withSiblings_siblings]
    obtain ⟨ids, hlast, hlabel⟩ := (settled_written (b.withSiblings ts)).siblings_addTree t
    rw [← written_add, ← hb] at hlast hlabel
    intro id hid
    rw [hlast, List.getLast?_concat, Option.mem_some_iff] at hid
    rw [← hid, Document.kind?, hlabel]
    have hother : t.isText = false := h t (by simp [hs])
    obtain ⟨⟨content, attributes, control⟩, cs⟩ := t
    cases content with
    | text value => cases hother
    | element name | comment value => exact fun he => by cases he

theorem written_addText (hb : b.Normal preserve) (value : String) :
    b.written.addText value = (b.addText value).written := by
  rw [addText_eq]
  rcases Tree.withText_cases value b.siblings with ⟨before, attributes, control, cs, rest, hs, hjoined⟩ |
    ⟨hother, hnew⟩
  · have hleaf : cs = [] := (hb.siblings.each _ (hs ▸ List.mem_cons_self)).leaf fun h => by cases h
    subst hleaf
    have hbefore : b = (b.withSiblings rest).add (.leaf ⟨.text before, attributes, control⟩) := by
      rw [add_withSiblings]
      exact (hs ▸ b.withSiblings_siblings).symm
    have hafter : b.withSiblings (Tree.withText value b.siblings) =
        (b.withSiblings rest).add (.leaf ⟨.text (before ++ value), attributes, control⟩) := by
      rw [hjoined, add_withSiblings]
      rfl
    rw [hafter, written_add, ← (settled_written _).addText_addTree, ← written_add, ← hbefore]
  · rw [hnew, ← add, written_add]
    exact b.settled_written.addText_of_no_text value (kind?_getLast_siblings hother)

theorem written_text (hb : b.Normal preserve) (value : String) :
    b.written.text preserve value = (b.push preserve (.text value)).written := by
  rw [TreeBuilder.text, b.settled_written.finishStartTag, keepsSpace_written, push]
  split_ifs
  · rfl
  · rfl
  · exact written_addText hb value

theorem written_comment (b : Builder) (value : String) :
    b.written.addLeaf (.comment value) = (b.add (.leaf (.comment value))).written := by
  rw [b.settled_written.addLeaf, written_add]

theorem written_finish (b : Builder) : b.written.finish = b.finish.written := by
  rw [TreeBuilder.finish, b.settled_written.finishStartTag, finish, written_close]
  have hall := b.reportUnclosed_written b.opened.length
  have hlength : b.written.opened.length = b.opened.length := by
    simpa using congrArg List.length b.tags_written
  rw [List.take_length, ← hlength, List.take_length] at hall
  rw [hall, ← hlength, written_report]
  simp [TreeBuilder.report]

end Builder

/-! ### Start tags -/

namespace TreeBuilder

variable {preserve : Bool} {b w : TreeBuilder} {name : String} {span : Span}

/-- The start tag is being read, and the element has these attributes so far. -/
def reading (b : TreeBuilder) (name : String) (attributes : Table String) (span : Span) : TreeBuilder :=
  { b with
    document := (b.document.create ⟨.element name, attributes, none⟩).1
    pending := some ⟨(b.document.create ⟨.element name, attributes, none⟩).2, name, span⟩ }

namespace Settled

theorem startTag (h : b.Settled) (name : String) (span : Span) :
    b.startTag name span = b.reading name .empty span := by
  rw [TreeBuilder.startTag, h.finishStartTag]
  rfl

theorem setAttribute (h : b.Settled) (attributes : Table String) (n value : String) :
    { b.reading name attributes span with pendingName := some n }.setAttribute value =
      b.reading name (attributes.put n value) span := by
  have hput := h.tidy.modifyLabel_create (l := ⟨.element name, attributes, none⟩)
    fun l => { l with attributes := l.attributes.put n value }
  have hsame : (b.document.create ⟨.element name, attributes.put n value, none⟩).2 =
      (b.document.create ⟨.element name, attributes, none⟩).2 := Document.snd_alloc _ _ _
  rw [TreeBuilder.setAttribute, reading, reading, hsame, h.pendingName, ← hput]
  rfl

theorem flushAttribute_reading (h : b.Settled) (attributes : Table String) :
    (b.reading name attributes span).flushAttribute = b.reading name attributes span := by
  rw [flushAttribute, TreeBuilder.setAttribute, reading]
  simp [h.pendingName]

/-- The attributes of a run, which may begin with the value of the one before. -/
theorem flushAttribute_run (h : b.Settled) {tokens : List Token} {entries : List (String × String)}
    (hrun : AttributeRun tokens entries) {attributes : Table String}
    (hw : w.flushAttribute = b.reading name attributes span) :
    (tokens.foldl (push preserve) w).flushAttribute =
      b.reading name (entries.foldl (fun t e => t.put e.1 e.2) attributes) span := by
  induction hrun generalizing w attributes with
  | nil => exact hw
  | @bare n _ tokens entries named rest ih =>
    refine ih ?_
    change { w.flushAttribute with pendingName := some n }.setAttribute "" = _
    rw [hw, h.setAttribute]
  | @valued n value _ _ tokens entries named rest ih =>
    refine ih ?_
    change ({ w.flushAttribute with pendingName := some n }.setAttribute value).flushAttribute = _
    rw [hw, h.setAttribute, h.flushAttribute_reading]

theorem finishStartTag_reading (h : b.Settled) {attributes : Table String}
    (hw : w.flushAttribute = b.reading name attributes span) (selfClosing : Bool) :
    w.finishStartTag selfClosing =
      if selfClosing || isVoid name then b.addTree (.leaf ⟨.element name, attributes, none⟩)
      else b.enter ⟨name, attributes, span, []⟩ := by
  have hadded : { b.reading name attributes span with pending := none }.addToParent
      (b.document.create ⟨.element name, attributes, none⟩).2 =
      b.addTree (.leaf ⟨.element name, attributes, none⟩) := by
    rw [← h.addLeaf, TreeBuilder.addLeaf, reading, ← h.pending]
  rw [TreeBuilder.finishStartTag, hw]
  dsimp only [reading] at hadded ⊢
  rw [hadded]
  rfl

end Settled

end TreeBuilder

/-! ### All tokens -/

namespace Builder

variable {preserve : Bool} {b : Builder} {w : TreeBuilder} {name : String} {span : Span}
  {tokens : List Token} {tags : List StartTag}

theorem written_opening (preserve : Bool) (b : Builder) (attributes : Table String) (selfClosing : Bool)
    (hw : w.flushAttribute = b.written.reading name attributes span) :
    w.finishStartTag selfClosing = (b.push preserve (.opening name attributes selfClosing span)).written := by
  rw [b.settled_written.finishStartTag_reading hw, push]
  split_ifs
  · exact (written_add b _).symm
  · rfl

theorem flushAttribute_startTag (preserve : Bool) (b : Builder) (name : String) (span : Span)
    {inside : List Token} {entries : List (String × String)} (attributes : AttributeRun inside entries) :
    ((⟨.startTag name, span⟩ :: inside).foldl (TreeBuilder.push preserve) b.written).flushAttribute =
      b.written.reading name (Table.ofEntries entries) span := by
  refine b.settled_written.flushAttribute_run attributes ?_
  change (b.written.startTag name span).flushAttribute = _
  rw [b.settled_written.startTag, b.settled_written.flushAttribute_reading]

/-- The tokens of an item lead to what the item leads to. -/
theorem written_group (hb : b.Normal preserve) (h : TokenGroup tokens tags) :
    ∃ items, (∀ rest, Item.ofTokens (tokens ++ rest) = items ++ Item.ofTokens rest) ∧
      tokens.foldl (TreeBuilder.push preserve) b.written =
        (items.foldl (Builder.push preserve) b).written := by
  cases h with
  | @text value _ span => exact ⟨[.text value], fun _ => rfl, written_text hb value⟩
  | cdata value span => exact ⟨[.text value], fun _ => rfl, written_text hb value⟩
  | comment value span => exact ⟨[.comment value], fun _ => rfl, b.written_comment value⟩
  | doctype value span => exact ⟨[], fun _ => rfl, rfl⟩
  | endTag name span => exact ⟨[.closing name span], fun _ => rfl, written_closing preserve b name span⟩
  | @startTag name span inside entries stop attributes ends =>
    have hread := flushAttribute_startTag preserve b name span attributes
    obtain ⟨lexeme, span'⟩ := stop
    rw [← List.cons_append, List.foldl_append]
    rcases ends with he | he
    · obtain rfl : lexeme = .startTagEnd := he
      refine ⟨[.opening name (Table.ofEntries entries) false span], fun rest => ?_, ?_⟩
      · rw [List.append_assoc]
        exact attributes.ofTokens_startTag name span rfl rest
      · exact written_opening preserve b _ false hread
    · obtain rfl : lexeme = .startTagEndVoid := he
      refine ⟨[.opening name (Table.ofEntries entries) true span], fun rest => ?_, ?_⟩
      · rw [List.append_assoc]
        exact attributes.ofTokens_startTag name span rfl rest
      · exact written_opening preserve b _ true hread

theorem written_finish_of_reading (preserve : Bool) (attributes : Table String)
    (hw : w.flushAttribute = b.written.reading name attributes span) :
    w.finish = (b.push preserve (.opening name attributes false span)).finish.written := by
  have hopened := written_opening preserve b attributes false hw
  rw [← written_finish, TreeBuilder.finish, TreeBuilder.finish, hopened,
    (settled_written _).finishStartTag]

/-- The tokens of a source lead to the document of the trees that its items lead to. -/
theorem written_stream {faulty : Prop} {cs : List Char} (hb : b.Normal preserve)
    (h : TokenStream faulty tokens tags) (hs : ∀ i ∈ Item.ofTokens tokens, i.SaidIn cs) :
    tokens.foldl (TreeBuilder.push preserve) b.written =
      ((Item.ofTokens tokens).foldl (Builder.push preserve) b).finish.written := by
  induction h generalizing b with
  | finished span => exact b.written_finish
  | @unfinished name span span' inside entries attributes fault =>
    have hread := flushAttribute_startTag preserve b name span attributes
    have hitems : Item.ofTokens (⟨.startTag name, span⟩ :: (inside ++ [⟨.endOfSource, span'⟩])) =
        [.opening name (Table.ofEntries entries) false span] :=
      attributes.ofTokens_startTag name span rfl []
    rw [hitems, ← List.cons_append, List.foldl_append]
    exact written_finish_of_reading preserve _ hread
  | group first rest ih =>
    obtain ⟨items, hitems, hgroup⟩ := written_group hb first
    rw [hitems] at hs ⊢
    rw [List.forall_mem_append] at hs
    rw [List.foldl_append, hgroup, List.foldl_append, ih (hb.foldl hs.1) hs.2]

end Builder

theorem TreeBuilder.foldl_addTree_of_no_opened {b : TreeBuilder} (h : b.opened = []) (ts : List Tree) :
    ts.foldl addTree b = { b with
      document := (b.document.graftAll ts).1, roots := b.roots ++ (b.document.graftAll ts).2 } := by
  induction ts generalizing b with
  | nil => simp [Document.graftAll]
  | cons t ts ih =>
    have hrest : (b.addTree t).opened = [] := h
    rw [List.foldl_cons, ih hrest, Document.graftAll, Document.graft, addTree, innermost?, h]
    simp

/-- What the builder of documents comes to is what the builder of trees stands for. -/
theorem build_lex (text url : String) (preserve : Bool) :
    TreeBuilder.build preserve (lex text url).tokens =
      (Builder.run preserve (Item.ofTokens (lex text url).tokens)).written := by
  obtain ⟨tags, hstream⟩ : ∃ tags, TokenStream True (lex text url).tokens tags :=
    lexFrom_stream (k := ⟨.start, unifyLineEnds text.toList⟩) fun _ => trivial
  exact Builder.written_stream .start hstream (items_said text url)

theorem ofTrees_run (text url : String) (preserve : Bool) :
    Document.ofTrees (Builder.run preserve (Item.ofTokens (lex text url).tokens)).roots.reverse =
      ((parse text url preserve).document, (parse text url preserve).rootNodes) := by
  rw [parse]
  dsimp only
  rw [build_lex]
  generalize hb : Builder.run preserve (Item.ofTokens (lex text url).tokens) = b
  have hopened : b.opened = [] := by
    rw [← hb]
    exact Builder.opened_finish _
  rw [Builder.written, hopened, List.foldr_nil, TreeBuilder.foldl_addTree_of_no_opened rfl]
  rfl

theorem roots_parse (text url : String) (preserve : Bool) :
    (parse text url preserve).roots =
      (Builder.run preserve (Item.ofTokens (lex text url).tokens)).roots.reverse := by
  have hall := (Document.tidy_empty.graftAll
    (Builder.run preserve (Item.ofTokens (lex text url).tokens)).roots.reverse).2
  rw [← Document.ofTrees, ofTrees_run] at hall
  exact filterMap_of_forall₂ hall

theorem errors_parse (text url : String) (preserve : Bool) :
    (parse text url preserve).errors = (lex text url).errors ++
      (Builder.run preserve (Item.ofTokens (lex text url).tokens)).errors := by
  rw [parse]
  dsimp only
  rw [build_lex, Builder.errors_written]

/-- The handles of a parsed document are those of its trees in document order. -/
theorem ofTrees_parse (text url : String) (preserve : Bool) :
    Document.ofTrees (parse text url preserve).roots =
      ((parse text url preserve).document, (parse text url preserve).rootNodes) := by
  rw [roots_parse, ofTrees_run]

/-- The attribute names and the comments of parsed trees are what the text with unified line ends
says. -/
theorem parse_every (text url : String) (preserve : Bool) :
    ∀ t ∈ (parse text url preserve).roots,
      t.EveryLabel (Label.SaidIn (unifyLineEnds text.toList)) := by
  intro t ht
  rw [roots_parse, List.mem_reverse] at ht
  exact (Builder.run_every preserve (items_said text url)).roots t ht

theorem parse_normal (text url : String) (preserve : Bool) :
    Tree.NormalAll preserve none (parse text url preserve).roots := by
  rw [roots_parse]
  exact (Builder.Normal.run (items_said text url)).roots.reverse

end LiveMarkup
