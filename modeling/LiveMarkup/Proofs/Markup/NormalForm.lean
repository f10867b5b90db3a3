import LiveMarkup.Proofs.Document.Within
import LiveMarkup.Proofs.Markup.BuiltDocument

namespace LiveMarkup

def spaceKeepers : List String := ["pre", "script", "style", "textarea", "title"]

theorem keepsSpace_iff {name : String} : keepsSpace name = true ↔ name.toLower ∈ spaceKeepers := by
  have hpre : sameName name "pre" = true ↔ name.toLower = "pre" := by
    rw [sameName, beq_iff_eq, show "pre".toLower = "pre" by decide +kernel]
  have hcontent : (tagContent name != .markup) = true ↔
      name.toLower ∈ ["script", "style", "textarea", "title"] := by
    unfold tagContent
    split <;> simp_all
  rw [keepsSpace, Bool.or_eq_true, hpre, hcontent]
  exact List.mem_cons.symm

namespace Document

variable {d d' : Document} {q : Option NodeId} {k s : Shape} {ss : List Shape} {preserve : Bool}

def elementName? (d : Document) (id : NodeId) : Option String :=
  (d.label? id).bind fun l =>
    match l.content with
    | .element name => some name
    | _ => none

/-- Where the tree of a shape is normal, so is the tree of each part of it, below its parent. -/
theorem Holds.normal_within (h : d.Holds q s) (hk : k.Within s)
    (hs : (d.treeAt s).Normal preserve (q.bind d.elementName?)) :
    ∃ r, d.Holds r k ∧ (d.treeAt k).Normal preserve (r.bind d.elementName?) := by
  induction hk generalizing q with
  | self => exact ⟨q, h, hs⟩
  | @child id cs c mem _ ih =>
    refine ih (h.child mem) ?_
    obtain ⟨l, read⟩ := h.read
    have hlabel : d.label? id = some l := label?_of_node? read
    rw [treeAt_node, labelAt, hlabel, Option.getD_some] at hs
    obtain ⟨name, hcontent, hnormal⟩ := hs.inside (List.mem_map_of_mem mem)
    have hname : d.elementName? id = some name := by
      rw [elementName?, hlabel, Option.bind_some, hcontent]
    rwa [Option.bind_some, Shape.id, hname]

def TextsApart (d : Document) (ids : List NodeId) : Prop :=
  ids.IsChain fun x y => d.kind? x ≠ some .text ∨ d.kind? y ≠ some .text

theorem textsApart_ids {ss : List Shape} (h : (ss.map d.treeAt).IsChain Tree.Apart) :
    d.TextsApart (ss.map Shape.id) := by
  have hkind : ∀ s : Shape, (d.treeAt s).isText = false → d.kind? s.id ≠ some .text := by
    rintro ⟨id, cs⟩ hs hkind
    obtain ⟨⟨content, attributes, control⟩, hl, hkind⟩ := Option.map_eq_some_iff.mp hkind
    have hlabel : d.labelAt id = ⟨content, attributes, control⟩ := by
      rw [labelAt, show d.label? id = _ from hl, Option.getD_some]
    rw [treeAt_node, hlabel] at hs
    cases content with
    | text value => cases hs
    | element | comment => cases hkind
  rw [TextsApart, List.isChain_map]
  rw [List.isChain_map] at h
  exact h.imp fun s t => Or.imp (hkind s) (hkind t)

/-- A document of parsed trees. -/
structure NormalForm (preserve : Bool) (d : Document) (roots : List NodeId) : Prop where
  parentless : ∀ r ∈ roots, d.contains r = true ∧ d.parent? r = none
  distinct : roots.Nodup
  /-- Each live node is in the subtree of exactly one root. -/
  parted : ∀ x, d.contains x = true → ∃! r, r ∈ roots ∧ x ∈ d.descendants r
  attributes : ∀ x, (d.attributes x).names.Nodup
  /-- Only elements that are not void have children. -/
  leaves : ∀ x l, d.label? x = some l → (l.content.isElement = true → isVoid l.name = true) →
    d.children x = []
  nonempty : ∀ x l, d.label? x = some l → l.content ≠ .text ""
  apart : ∀ x, d.TextsApart (d.children x)
  apartOutside : d.TextsApart roots
  /-- Texts of white space only are where it is kept. -/
  spaces : preserve = false → ∀ x l value, d.label? x = some l → l.content = .text value →
    (∀ c ∈ value.toList, isMarkupSpace c = true) →
    ∃ p name, d.parent? x = some p ∧ d.elementName? p = some name ∧ name.toLower ∈ spaceKeepers

section

variable (hgrown : Grown .empty d ss) (hnormal : Tree.NormalAll preserve none (ss.map d.treeAt))
include hgrown

theorem exists_shape_of_live {x : NodeId} (hx : d.contains x = true) : ∃ s ∈ ss, x ∈ s.ids := by
  obtain ⟨n, hn⟩ := contains_iff.mp hx
  by_contra hout
  rw [hgrown.frame x fun hmem => hout (List.mem_flatMap.mp hmem)] at hn
  cases hn

theorem existsUnique_root {x : NodeId} (hx : d.contains x = true) :
    ∃! r, r ∈ ss.map Shape.id ∧ x ∈ d.descendants r := by
  have hnodup := List.nodup_flatMap.mp hgrown.nodup
  have hdescendants : ∀ s ∈ ss, d.descendants s.id = s.ids := fun s hs =>
    (hgrown.holds s hs).descendants (hnodup.1 s hs)
  obtain ⟨s, hs, hxs⟩ := exists_shape_of_live hgrown hx
  refine ⟨s.id, ⟨List.mem_map_of_mem hs, by rwa [hdescendants s hs]⟩, ?_⟩
  rintro r ⟨hr, hxr⟩
  obtain ⟨t, ht, rfl⟩ := List.mem_map.mp hr
  rw [hdescendants t ht] at hxr
  by_contra hne
  have hst : t ≠ s := fun e => hne (congrArg Shape.id e)
  have hsymm : Std.Symm (Function.onFun List.Disjoint Shape.ids) := ⟨fun _ _ h => h.symm⟩
  have hdisjoint : List.Disjoint t.ids s.ids := hnodup.2.forall ht hs hst
  exact hdisjoint hxr hxs

include hnormal

/-- Each live node is linked and labelled as a normal tree says. -/
theorem exists_normal {x : NodeId} (hx : d.contains x = true) :
    ∃ (l : Label) (r : Option NodeId) (cs : List Shape), d.node? x = some ⟨l, r, cs.map Shape.id⟩ ∧
      (Tree.node l (cs.map d.treeAt)).Normal preserve (r.bind d.elementName?) := by
  obtain ⟨s, hs, hxs⟩ := exists_shape_of_live hgrown hx
  obtain ⟨⟨id, cs⟩, hk, rfl⟩ := Shape.exists_within hxs
  obtain ⟨r, hheld, hnode⟩ := (hgrown.holds s hs).normal_within hk
    (hnormal.each _ (List.mem_map_of_mem hs))
  obtain ⟨l, read⟩ := hheld.read
  have hlabel : d.label? id = some l := label?_of_node? read
  rw [treeAt_node, labelAt, hlabel, Option.getD_some] at hnode
  exact ⟨l, r, cs, read, hnode⟩

theorem NormalForm.of_grown : NormalForm preserve d (ss.map Shape.id) := by
  have hread : ∀ x l, d.label? x = some l → ∃ (r : Option NodeId) (cs : List Shape),
      d.node? x = some ⟨l, r, cs.map Shape.id⟩ ∧
      (Tree.node l (cs.map d.treeAt)).Normal preserve (r.bind d.elementName?) := by
    intro x l hl
    obtain ⟨n, hn, rfl⟩ := Option.map_eq_some_iff.mp hl
    obtain ⟨l, r, cs, read, hnode⟩ := exists_normal hgrown hnormal (contains_iff.mpr ⟨n, hn⟩)
    obtain rfl := Option.some.inj (hn.symm.trans read)
    exact ⟨r, cs, read, hnode⟩
  refine
    { parentless := fun r hr => ?_
      distinct := Shape.nodup_map_id hgrown.nodup
      parted := fun x hx => existsUnique_root hgrown hx
      attributes := fun x => ?_
      leaves := fun x l hl hleaf => ?_
      nonempty := fun x l hl => ?_
      apart := fun x => ?_
      apartOutside := textsApart_ids hnormal.apart
      spaces := fun hpreserve x l value hl hvalue hspace => ?_ }
  · obtain ⟨s, hs, rfl⟩ := List.mem_map.mp hr
    obtain ⟨l, read⟩ := (hgrown.holds s hs).read
    exact ⟨(hgrown.holds s hs).contains, parent?_of_node? read⟩
  · cases hl : d.label? x with
    | none =>
      rw [Document.attributes, hl]
      exact List.nodup_nil
    | some l =>
      obtain ⟨r, cs, -, hnode⟩ := hread x l hl
      rw [Document.attributes, hl, Option.map_some, Option.getD_some]
      exact hnode.attributes
  · obtain ⟨r, cs, read, hnode⟩ := hread x l hl
    rw [children_of_node? read, List.map_eq_nil_iff.mp (hnode.leaf hleaf), List.map_nil]
  · obtain ⟨r, cs, -, hnode⟩ := hread x l hl
    exact hnode.content_ne
  · cases hx : d.node? x with
    | none =>
      rw [children, hx]
      exact .nil
    | some n =>
      obtain ⟨r, cs, read, hnode⟩ := hread x n.label (label?_of_node? hx)
      rw [children_of_node? read]
      exact textsApart_ids hnode.apart
  · obtain ⟨r, cs, read, hnode⟩ := hread x l hl
    rcases hpreserve ▸ hnode.kept hvalue with hfalse | ⟨name, hname, hkeeps⟩ | ⟨c, hc, hnot⟩
    · cases hfalse
    · obtain ⟨p, rfl, hname⟩ := Option.bind_eq_some_iff.mp hname
      exact ⟨p, name, parent?_of_node? read, hname, keepsSpace_iff.mp hkeeps⟩
    · exact absurd (hspace c hc) (by simp [hnot])

end

/-- Whatever the text, and whether or not white space is kept, its document is in normal form and holds
the nodes of its trees in document order. -/
theorem normalForm_parse (text url : String) (preserve : Bool) :
    NormalForm preserve (parse text url preserve).document (parse text url preserve).rootNodes ∧
      ofTrees (parse text url preserve).roots =
        ((parse text url preserve).document, (parse text url preserve).rootNodes) := by
  obtain ⟨ss, hgrown, hids, htrees⟩ := tidy_empty.grown_graftAll (parse text url preserve).roots
  have hnormal := parse_normal text url preserve
  have hdocument := ofTrees_parse text url preserve
  rw [← htrees] at hnormal
  rw [ofTrees] at hdocument
  rw [hdocument] at hgrown hids hnormal
  have hform := NormalForm.of_grown hgrown hnormal
  rw [hids] at hform
  exact ⟨hform, ofTrees_parse text url preserve⟩

end Document

end LiveMarkup
