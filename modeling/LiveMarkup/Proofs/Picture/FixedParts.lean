import LiveMarkup.Proofs.Blueprint.Sayable
import LiveMarkup.Proofs.Picture.Run

namespace LiveMarkup

open CompileContext Document Site

namespace Label

/-- The label with an empty text or empty attribute values, and without a live value. -/
def fixedPart (l : Label) : Label where
  content := if l.content.isText then .text "" else l.content
  attributes := l.attributes.map fun _ => ""
  control := none

variable {l l' : Label}

theorem content_of_fixedPart_eq (h : l.fixedPart = l'.fixedPart) :
    l.content = l'.content ∨ l.content.isText = true ∧ l'.content.isText = true := by
  have hcontent := congrArg Label.content h
  obtain ⟨content, attributes, control⟩ := l
  obtain ⟨content', attributes', control'⟩ := l'
  cases content <;> cases content' <;> simp_all [fixedPart, Content.isText]

theorem isText_of_fixedPart_eq (h : l.fixedPart = l'.fixedPart) :
    l.content.isText = l'.content.isText := by
  rcases content_of_fixedPart_eq h with hc | ⟨hl, hl'⟩
  · rw [hc]
  · rw [hl, hl']

theorem names_of_fixedPart_eq (h : l.fixedPart = l'.fixedPart) :
    l.attributes.names = l'.attributes.names := by
  have hnames := congrArg (fun l : Label => l.attributes.names) h
  dsimp only [fixedPart] at hnames
  rwa [Table.names_map, Table.names_map] at hnames

theorem admits_of_fixedPart_eq (h : l.fixedPart = l'.fixedPart) (text : Bool) :
    l.admits text = l'.admits text := by
  rcases content_of_fixedPart_eq h with hc | ⟨hl, hl'⟩
  · rw [admits, admits, hc]
  · obtain ⟨content, attributes, control⟩ := l
    obtain ⟨content', attributes', control'⟩ := l'
    cases content <;> cases hl
    cases content' <;> cases hl'
    rfl

theorem isSayable_of_fixedPart_eq (h : l.fixedPart = l'.fixedPart) (hl : l.IsSayable) : l'.IsSayable := by
  have hnames := names_of_fixedPart_eq h
  obtain ⟨content, attributes, control⟩ := l
  obtain ⟨content', attributes', control'⟩ := l'
  rcases content_of_fixedPart_eq h with hc | ⟨-, hl'⟩
  · obtain rfl : content = content' := hc
    cases content with
    | element name =>
      refine ⟨hl.1, ?_, ?_⟩
      · exact hnames ▸ hl.2.nodup
      · exact hnames ▸ hl.2.named
    | text value => trivial
    | comment value => exact hl
  · cases content' <;> cases hl'
    trivial

theorem fixedPart_inscribe {p : Place} (text : String)
    (h : ∀ x, p = .node x → l.content.isText = true) : (l.inscribe p text).fixedPart = l.fixedPart := by
  cases p with
  | node x =>
    obtain ⟨content, attributes, control⟩ := l
    cases content <;> cases h x rfl
    rfl
  | «attribute» x k =>
    have hcontent := content_inscribe_attribute l x k text
    have hnames := names_inscribe l (.attribute x k) text
    have hentries : ∀ l : Label, l.fixedPart.attributes.entries =
        (l.attributes.entries.map (·.1)).map fun name => (name, "") := by
      intro l
      rw [fixedPart, Table.map, List.map_map]
      rfl
    have hattributes : (l.inscribe (.attribute x k) text).fixedPart.attributes = l.fixedPart.attributes := by
      rw [Table.mk.injEq, hentries, hentries, hnames]
    rw [fixedPart, fixedPart, Label.mk.injEq, hcontent]
    exact ⟨rfl, hattributes, rfl⟩

theorem fixedPart_inscribed {ws : List (Place × String)}
    (h : ∀ w ∈ ws, ∀ x, w.1 = .node x → l.content.isText = true) :
    (l.inscribed ws).fixedPart = l.fixedPart := by
  induction ws generalizing l with
  | nil => rfl
  | cons w ws ih =>
    have hfirst := fixedPart_inscribe (l := l) w.2 (h w List.mem_cons_self)
    rw [inscribed_cons, ih fun w' hw' x hx => ?_, hfirst]
    rw [isText_of_fixedPart_eq hfirst]
    exact h w' (List.mem_cons_of_mem _ hw') x hx

end Label

theorem Tree.outline_congr {l l' : Label} {ts us : List Tree} (h : l.fixedPart = l'.fixedPart)
    (hinside : outlineAll ts = outlineAll us) :
    (Tree.node l ts).outline = (Tree.node l' us).outline := by
  have hnames := Label.names_of_fixedPart_eq h
  obtain ⟨content, attributes, control⟩ := l
  obtain ⟨content', attributes', control'⟩ := l'
  dsimp only at hnames
  rcases Label.content_of_fixedPart_eq h with hc | ⟨hl, hl'⟩
  · obtain rfl : content = content' := hc
    rw [outline, outline, hinside, hnames]
  · cases content <;> cases hl
    cases content' <;> cases hl'
    rfl

namespace Picture

structure Follows (p : Picture) (d : Document) (own : Shape) : Prop where
  labels : ∀ x ∈ own.ids, (p.label x).fixedPart = (d.labelAt x).fixedPart
  hung : ∀ x ∈ own.ids, ∀ e ∈ p.hung x, (d.labelAt x).admits e.2.isText = true ∧ e.2.IsSayable

theorem follows_ofCopy (d : Document) (own : Shape) : (ofCopy d).Follows d own :=
  ⟨fun _ _ => rfl, fun _ _ _ he => by cases he⟩

variable {p q : Picture} {d : Document} {own : Shape}

theorem isText_treeOf (s : Shape) : (p.treeOf s).isText = (p.label s.id).content.isText := by
  cases s with
  | node id cs => rw [treeOf_node]; rfl

theorem Follows.isSayable (h : p.Follows d own) (hd : (d.treeAt own).IsSayable) :
    (p.treeOf own).IsSayable := by
  induction own with
  | node id cs ih =>
    have hid : id ∈ (Shape.node id cs).ids := Shape.id_mem_ids (.node id cs)
    have hfixed := h.labels id hid
    rw [treeAt_node] at hd
    rw [treeOf_node]
    cases hd with
    | node label admitted below =>
      have hchild : ∀ c ∈ cs, p.Follows d c := fun c hc =>
        ⟨fun x hx => h.labels x (Shape.ids_subset_of_mem hc hx),
          fun x hx => h.hung x (Shape.ids_subset_of_mem hc hx)⟩
      refine .node (Label.isSayable_of_fixedPart_eq hfixed.symm label) (fun t ht => ?_) fun t ht => ?_
      · rw [Label.admits_of_fixedPart_eq hfixed]
        rcases List.mem_append.mp ht with ht | ht
        · obtain ⟨c, hc, rfl⟩ := List.mem_map.mp ht
          have hsame : (p.treeOf c).isText = (d.treeAt c).isText := by
            rw [isText_treeOf, Label.isText_of_fixedPart_eq ((hchild c hc).labels _ (Shape.id_mem_ids c))]
            cases c with
            | node y ks => rw [treeAt_node]; rfl
          rw [hsame]
          exact admitted _ (List.mem_map_of_mem hc)
        · obtain ⟨e, he, rfl⟩ := List.mem_map.mp ht
          exact (h.hung id hid e he).1
      · rcases List.mem_append.mp ht with ht | ht
        · obtain ⟨c, hc, rfl⟩ := List.mem_map.mp ht
          exact ih c hc (hchild c hc) (below _ (List.mem_map_of_mem hc))
        · obtain ⟨e, he, rfl⟩ := List.mem_map.mp ht
          exact (h.hung id hid e he).2

theorem outline_treeOf_congr (hlabels : ∀ x ∈ own.ids, (p.label x).fixedPart = (q.label x).fixedPart)
    (hhung : ∀ x ∈ own.ids, p.hung x = q.hung x) :
    (p.treeOf own).outline = (q.treeOf own).outline := by
  induction own with
  | node id cs ih =>
    have hid : id ∈ (Shape.node id cs).ids := Shape.id_mem_ids (.node id cs)
    rw [treeOf_node, treeOf_node]
    refine Tree.outline_congr (hlabels id hid) ?_
    rw [Tree.outlineAll_eq, Tree.outlineAll_eq, List.flatMap_append, List.flatMap_append, hhung id hid]
    congr 1
    rw [List.flatMap_map, List.flatMap_map]
    refine List.flatMap_congr fun c hc => ih c hc ?_ ?_
    · exact fun x hx => hlabels x (Shape.ids_subset_of_mem hc hx)
    · exact fun x hx => hhung x (Shape.ids_subset_of_mem hc hx)

end Picture

namespace Change

/-- The change writes to texts and attributes of the skeleton in `d`, and puts trees that can be said
where elements can be. -/
def Suits (d : Document) : Change → Prop
  | .inscribe _ _ ls => ∀ r ∈ ls, ∀ x, r.place = .node x → (d.labelAt x).content.isText = true
  | .hang _ _ anchor ts => ∀ t ∈ ts, (d.labelAt anchor).admits t.isText = true ∧ t.IsSayable
  | .pass => True

variable {p : Picture} {d : Document} {own : Shape} {c : Change} {cs : List Change}

theorem fixedPart_write (hp : p.Follows d own) {name : String} {ls : List BoundLocation}
    (h : ∀ r ∈ ls, ∀ x, r.place = .node x → (d.labelAt x).content.isText = true) {x : NodeId}
    (hx : x ∈ own.ids) : ((p.write name ls).label x).fixedPart = (p.label x).fixedPart := by
  refine Label.fixedPart_inscribed fun w hw y hy => ?_
  obtain ⟨r, hr, howner, rfl⟩ := BoundLocation.mem_writesAt.mp hw
  obtain rfl : y = x := (congrArg Place.owner hy).symm.trans howner
  rw [Label.isText_of_fixedPart_eq (hp.labels _ hx)]
  exact h r hr _ hy

theorem Suits.follows (hc : c.Suits d) (hp : p.Follows d own) : (c.apply p).Follows d own := by
  cases c with
  | inscribe name v ls =>
    have hvalue : (p.withValue name v).Follows d own := ⟨hp.labels, hp.hung⟩
    exact ⟨fun x hx => (fixedPart_write hvalue hc hx).trans (hp.labels x hx), hp.hung⟩
  | hang name v anchor ts =>
    refine ⟨hp.labels, fun x hx e he => ?_⟩
    rcases List.mem_append.mp he with he | he
    · exact hp.hung x hx e (List.mem_of_mem_filter he)
    · split at he
      · rename_i hanchor
        obtain ⟨t, ht, rfl⟩ := List.mem_map.mp he
        exact hanchor ▸ hc t ht
      · cases he
  | pass => exact hp

theorem follows_applyAll (hcs : ∀ c ∈ cs, c.Suits d) (hp : p.Follows d own) :
    (applyAll p cs).Follows d own := by
  induction cs generalizing p with
  | nil => exact hp
  | cons c cs ih =>
    exact ih (fun c' hc' => hcs c' (List.mem_cons_of_mem _ hc'))
      ((hcs c List.mem_cons_self).follows hp)

theorem outline_applyAll (hcs : ∀ c ∈ cs, c.Suits d ∧ ∀ name v anchor ts, c ≠ .hang name v anchor ts)
    (hp : p.Follows d own) : ((applyAll p cs).treeOf own).outline = (p.treeOf own).outline := by
  induction cs generalizing p with
  | nil => rfl
  | cons c cs ih =>
    obtain ⟨hc, hhang⟩ := hcs c List.mem_cons_self
    refine (ih (fun c' hc' => hcs c' (List.mem_cons_of_mem _ hc')) (hc.follows hp)).trans ?_
    cases c with
    | inscribe name v ls =>
      have hvalue : (p.withValue name v).Follows d own := ⟨hp.labels, hp.hung⟩
      exact Picture.outline_treeOf_congr (fun x hx => fixedPart_write hvalue hc hx) fun _ _ => rfl
    | hang name v anchor ts => exact absurd rfl (hhang name v anchor ts)
    | pass => rfl

end Change

end LiveMarkup
