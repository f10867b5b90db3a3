import LiveMarkup.Proofs.Store.Renewal

/-!
# Transitions

The engine does one of a few things to an instance, or to one of its family, at a time. None of them takes
away or moves a child that is the instance's own, and what they add comes behind all of these, so paths
along the instance's own nodes lead where they led before.
-/

namespace LiveMarkup

open Document

namespace Label

/-- What paths tell a node and its attributes by. -/
def pathKey (l : Label) : NodeKind × String × List String := (l.kind, l.name, l.attributes.names)

variable {l : Label}

theorem kind_inscribe (l : Label) (p : Place) (text : String) : (l.inscribe p text).kind = l.kind := by
  cases p with
  | node x =>
    obtain ⟨content, _, _⟩ := l
    cases content <;> rfl
  | «attribute» x k => exact congrArg Content.kind (content_inscribe_attribute l x k text)

theorem pathKey_inscribeAll (l : Label) (name : String) (values : Table Json)
    (ls : List BoundLocation) : (l.inscribeAll name values ls).pathKey = l.pathKey := by
  induction ls generalizing l with
  | nil => rfl
  | cons r ls ih =>
    refine (ih _).trans ?_
    rw [pathKey, pathKey, kind_inscribe, name_inscribe]
    exact congrArg (fun names => (l.kind, l.name, names)) (names_inscribe l r.place _)

end Label

/-- What may happen to an instance of a document, and its document, while it is worked on. -/
inductive Transition (d : Document) (i : Instance) : Document → Instance → Prop where
  | tell {g g' : Instance} {p : List (String × Nat)} (focus : i.descend? p = some g)
      (root : g'.root = g.root) (accessors : g'.accessors = g.accessors) :
      Transition d i d (i.replaceAt g' p)
  | idle {d' : Document} (undone : Grown d d' []) : Transition d i d' i
  | write {g : Instance} {p : List (String × Nat)} {name : String} {ls : List BoundLocation}
      (focus : i.descend? p = some g) (get : g.accessors.get? name = some (.bound ls))
      (values : Table Json) : Transition d i (Instance.writeLocations d name values ls) i
  | attach {g : Instance} {p : List (String × Nat)} (focus : i.descend? p = some g) (t : Tree) :
      Transition d i ((d.graft t).1.append g.root (d.graft t).2) i
  | renew {g : Instance} {p : List (String × Nat)} {ac : Accessor Instance} {a : NodeId}
      {d₁ : Document} {ts : List Shape} (focus : i.descend? p = some g)
      (built : Owned d d₁ ts ac.children) (name : String) (anchor : d.Own g.stops a g.root) :
      Transition d i (d₁.renewed (g.children name) ac.children a) (i.replaceAt (g.withAccessor name ac) p)

/-- What the instance has of its own is still there, and each of these nodes has the children that it
had of its own in front of all others. -/
structure KeepsOwn (d : Document) (i : Instance) (d' : Document) (i' : Instance) : Prop where
  root : i'.root = i.root
  own : ∀ x, d.Own i.stops x i.root → d'.Own i'.stops x i'.root
  children : ∀ x, d.Own i.stops x i.root → ∀ front, front <+: d.children x →
    (∀ y ∈ front, d.Own i.stops y i.root) → front <+: d'.children x
  labels : ∀ x, d.Own i.stops x i.root →
    (d'.label? x).map Label.pathKey = (d.label? x).map Label.pathKey

namespace KeepsOwn

variable {d d' d'' : Document} {i i' i'' : Instance}

theorem refl (d : Document) (i : Instance) : KeepsOwn d i d i where
  root := rfl
  own _ hx := hx
  children _ _ _ hfront _ := hfront
  labels _ _ := rfl

theorem trans (h : KeepsOwn d i d' i') (h' : KeepsOwn d' i' d'' i'') : KeepsOwn d i d'' i'' where
  root := h'.root.trans h.root
  own x hx := h'.own x (h.own x hx)
  children x hx front hfront hown :=
    h'.children x (h.own x hx) front (h.children x hx front hfront hown)
      fun y hy => h.own y (hown y hy)
  labels x hx := (h'.labels x (h.own x hx)).trans (h.labels x hx)

/-- The links stay, the lists of children only grow, and no label changes in what paths see of it. -/
theorem of_links (root : i'.root = i.root) (stops : i'.stops = i.stops)
    (links : ∀ c p, d.Own i.stops p i.root → d.Link c p → d'.Link c p)
    (children : ∀ x, d.Own i.stops x i.root → d.children x <+: d'.children x)
    (labels : ∀ x, d.Own i.stops x i.root →
      (d'.label? x).map Label.pathKey = (d.label? x).map Label.pathKey) : KeepsOwn d i d' i' where
  root := root
  own x hx := by
    rw [stops, root]
    exact hx.of_links fun c p hlink hstop hp => ⟨links c p hp hlink, hstop⟩
  children x hx front hfront _ := hfront.trans (children x hx)
  labels := labels

theorem of_frame (same : ∀ x, d.Under x i.root → d'.node? x = d.node? x) : KeepsOwn d i d' i := by
  refine of_links rfl rfl (fun c p hp hlink => ?_) (fun x hx => ?_) fun x hx => ?_
  · exact (link_of_nodes (same c (.head hlink hp.under)) (same p hp.under)).mpr hlink
  · rw [Document.children, Document.children, same x hx.under]
  · rw [label?, label?, same x hx.under]

theorem of_write (d : Document) (i : Instance) (name : String) (values : Table Json)
    (ls : List BoundLocation) : KeepsOwn d i (Instance.writeLocations d name values ls) i := by
  have hlinks : ∀ x, (Instance.writeLocations d name values ls).links? x = d.links? x :=
    Instance.links?_writeLocations d ls
  refine of_links rfl rfl (fun c p _ hlink => (link_congr (hlinks c) (hlinks p)).mpr hlink)
    (fun x _ => ?_) fun x _ => ?_
  · rw [children_congr (hlinks x)]
  · rw [Instance.label?_writeLocations]
    cases d.label? x with
    | none => rfl
    | some l => exact congrArg some (l.pathKey_inscribeAll name values _)

end KeepsOwn

section Steps

variable {d₀ d d₁ d' : Document} {s : Shape} {i i' g : Instance} {p : List (String × Nat)}

theorem Owned.live_of_own (h : Owned d₀ d [s] [i]) {x : NodeId} (hx : d.Own i.stops x i.root) :
    ∃ n, d.node? x = some n :=
  h.grown.head_holds.live x (h.mem_ids_iff.mpr hx.under)

theorem Owned.keepsOwn_grown (h : Owned d₀ d [s] [i]) {ts : List Shape} (hgrown : Grown d d' ts) :
    KeepsOwn d i d' i := by
  have hkeeps : ∀ x, d.Own i.stops x i.root → d'.node? x = d.node? x := fun x hx => by
    obtain ⟨n, hn⟩ := h.live_of_own hx
    exact hgrown.keeps hn
  refine .of_links rfl rfl (fun c p _ hlink => hgrown.link hlink) (fun x hx => ?_) fun x hx => ?_
  · rw [Document.children, Document.children, hkeeps x hx]
  · rw [label?, label?, hkeeps x hx]

theorem Owned.keepsOwn_attach (h : Owned d₀ d [s] [i]) (hg : i.descend? p = some g) (t : Tree) :
    KeepsOwn d i ((d.graft t).1.append g.root (d.graft t).2) i := by
  obtain ⟨c, hc, hid⟩ := h.grown.tidy.graft t
  have hlabels := (h.attach hg hc).2
  have hchildren := h.children_attach hg hc
  have hlink := fun x y (hxy : d.Link x y) => h.link_attach hg hc hxy
  rw [hid] at hlabels hchildren hlink
  have hkeeps : ∀ x, d.Own i.stops x i.root → (d.graft t).1.node? x = d.node? x := fun x hx => by
    obtain ⟨n, hn⟩ := h.live_of_own hx
    exact hc.grown.keeps hn
  refine .of_links rfl rfl (fun c p _ => hlink c p) (fun x hx => ?_) fun x hx => ?_
  · have hsame : (d.graft t).1.children x = d.children x := by
      rw [Document.children, Document.children, hkeeps x hx]
    rw [hchildren, hsame]
    exact List.prefix_append _ _
  · rw [hlabels, label?, label?, hkeeps x hx]

theorem Owned.keepsOwn_renew (h : Owned d₀ d [s] [i]) (hg : i.descend? p = some g)
    {ac : Accessor Instance} {a : NodeId} {ts : List Shape} (built : Owned d d₁ ts ac.children)
    (name : String) (ha : d.Own g.stops a g.root) :
    KeepsOwn d i (d₁.renewed (g.children name) ac.children a)
      (i.replaceAt (g.withAccessor name ac) p) := by
  have hall : Owned d₀ d₁ (s :: (ts ++ [])) (i :: (ac.children ++ [])) := by
    rw [List.append_nil, List.append_nil]
    exact h.append built
  refine (h.keepsOwn_grown built.grown).trans ?_
  have hi := hall.embedded i List.mem_cons_self
  have hanchor := ha.grown built.grown
  have hstay : ∀ x, d₁.Own i.stops x i.root → ∀ z ∈ g.children name, ¬ d₁.Under x z.root :=
    fun x hx z hz => hi.own_not_under_family (hall.rooted .refl) hg
      (Instance.mem_generated_of_mem_children hz) hx
  obtain ⟨-, hlinks, -⟩ := hall.grown_renewed name built.roots hg hanchor
  have hroot : (i.replaceAt (g.withAccessor name ac) p).root = i.root :=
    Instance.root_replaceAt hg rfl
  refine ⟨hroot, fun x hx => ?_, fun x hx front hfront hown => ?_, fun x hx => ?_⟩
  · rw [hroot]
    cases p with
    | nil =>
      obtain rfl := Option.some.inj hg
      exact hall.own_renewed name built.roots hg hanchor rfl hx
    | cons q p =>
      have hstops : (i.replaceAt (g.withAccessor name ac) (q :: p)).stops = i.stops :=
        hi.stops_replaceAt hg rfl fun e => by cases e
      rw [hstops]
      refine hx.of_links fun c p hlink hstop hp => ⟨(hlinks c p).mpr (.inl ⟨hlink, ?_⟩), hstop⟩
      exact hstay c (.head ⟨hlink, hstop⟩ hp)
  · -- no own child is among those that go
    rw [hall.children_renewed_of_under built.roots hg hanchor name hx.under (hstay x hx)]
    have hkept : front.filter (· ∉ g.rootsOf [name]) = front := by
      refine List.filter_eq_self.mpr fun y hy => decide_eq_true fun hmem => ?_
      obtain ⟨n, hn, z, hz, rfl⟩ := Instance.mem_rootsOf.mp hmem
      obtain rfl := List.mem_singleton.mp hn
      exact hstay _ (hown _ hy) z hz .refl
    have hfiltered := hfront.filter (· ∉ g.rootsOf [name])
    rw [hkept] at hfiltered
    exact hfiltered.trans (List.prefix_append _ _)
  · rw [hall.label?_renewed built.roots hg hanchor name hx.under (hstay x hx)]

theorem Transition.keepsOwn (ht : Transition d i d' i') (h : Owned d₀ d [s] [i]) : KeepsOwn d i d' i' := by
  have hi := h.embedded i List.mem_cons_self
  cases ht with
  | @tell g g' p focus root accessors =>
    have hstops := hi.stops_replaceAt focus root fun _ => Instance.stops_congr accessors
    exact .of_links (Instance.root_replaceAt focus root) hstops (fun _ _ _ hlink => hlink)
      (fun x _ => List.prefix_rfl) fun x _ => rfl
  | idle undone => exact h.keepsOwn_grown undone
  | write _ _ values => exact .of_write d i _ values _
  | attach focus t => exact h.keepsOwn_attach focus t
  | renew focus built name anchor => exact h.keepsOwn_renew focus built name anchor

end Steps

/-- An instance comes from one state to another by transitions. The document is otherwise `base`. -/
def Transitions (base : Document) : Document × Instance → Document × Instance → Prop :=
  Relation.ReflTransGen fun before after =>
    (∃ s, Owned base before.1 [s] [before.2]) ∧ Transition before.1 before.2 after.1 after.2

theorem Transitions.keepsOwn {base : Document} {before after : Document × Instance}
    (h : Transitions base before after) : KeepsOwn before.1 before.2 after.1 after.2 := by
  induction h with
  | refl => exact .refl _ _
  | tail _ htransition ih =>
    obtain ⟨⟨s, howned⟩, htransition⟩ := htransition
    exact ih.trans (htransition.keepsOwn howned)

end LiveMarkup
