import LiveMarkup.Proofs.Store.Extending
import LiveMarkup.Proofs.Picture.Restriction

/-!
# Extensions and fresh instances

An extension by a template puts one more child behind the others of the root. If the instance has none of
the properties of the template yet, the child is the same as the tree of an instance of the template in a
document of its own, once that has been assigned the values that the other one has, and nothing else
changes.
-/

namespace LiveMarkup

open Document

theorem Table.get?_append_of_not_mem {α : Type} {entries more : List (String × α)} {name : String}
    (h : name ∉ entries.map (·.1)) :
    Table.get? ⟨entries ++ more⟩ name = Table.get? ⟨more⟩ name := by
  have hnone : entries.find? (fun e => e.1 == name) = none := by
    rw [List.find?_eq_none]
    intro e he
    rw [beq_iff_eq]
    rintro rfl
    exact h (List.mem_map_of_mem he)
  rw [get?, get?, List.find?_append, hnone, Option.none_or]

/-! ### Bound properties -/

namespace Blueprint

variable {b : Blueprint}

/-- No attribute reads a name that drives a region. -/
def ReadsNoDriver (b : Blueprint) : Prop :=
  ∀ e ∈ b.properties.entries, ∀ r ∈ e.2, ∀ m ∈ r.expression.properties, m ∉ b.regions.names

instance (b : Blueprint) : Decidable b.ReadsNoDriver :=
  inferInstanceAs (Decidable (∀ e ∈ b.properties.entries, _))

theorem mem_properties_of_mem_exposures {name : String} {rs : List BindingRecord}
    (h : Exposure.leaf name rs ∈ b.exposures) : (name, rs) ∈ b.properties.entries := by
  rw [exposures, List.mem_append] at h
  rcases h with h | h
  · obtain ⟨p, hp, he⟩ := List.mem_map.mp h
    obtain ⟨rfl, rfl⟩ := Exposure.leaf.inj he
    exact List.mem_of_mem_filter hp
  · obtain ⟨r, -, he⟩ := List.mem_map.mp h
    cases he

namespace Bound

variable {d : Document} {c : Shape} {as : List (String × Accessor Instance)} {n m : String}
  {ls : List BoundLocation} {r : BoundLocation}

theorem exists_record (h : b.Bound d c as) (hn : (n, .bound ls) ∈ as) (hr : r ∈ ls) :
    ∃ e ∈ b.properties.entries, ∃ record ∈ e.2, record.expression = r.expression := by
  obtain ⟨x, hx, hresolves⟩ := h.exists_exposure hn
  cases hresolves with
  | @leaf _ rs _ places =>
    have hmem : (some r.place, r.expression) ∈ rs.map fun record =>
        (d.decode? c.id record.path, record.expression) := by
      rw [places]
      exact List.mem_map_of_mem hr
    obtain ⟨record, hrecord, he⟩ := List.mem_map.mp hmem
    exact ⟨_, mem_properties_of_mem_exposures hx, record, hrecord, (Prod.mk.inj he).2⟩

theorem exists_bound_of_reads (h : b.Bound d c as) (unread : b.ReadsNoDriver)
    (hn : (n, .bound ls) ∈ as) (hr : r ∈ ls) (hm : m ∈ r.expression.reads n) :
    ∃ ls', (m, .bound ls') ∈ as := by
  obtain ⟨⟨m', ac⟩, hmem, rfl⟩ := List.mem_map.mp (h.closed n ls r m hn hr hm)
  cases ac with
  | bound ls' => exact ⟨ls', hmem⟩
  | iterating a view cs =>
    obtain ⟨x, hx, hresolves⟩ := h.exists_exposure hmem
    cases hresolves with
    | @iterating _ g _ anchor =>
      have hdriver : m' ∈ b.regions.names :=
        List.mem_map_of_mem (f := (·.1)) (mem_regions_of_mem_exposures hx)
      obtain ⟨e, he, record, hrecord, hexpression⟩ := h.exists_record hn hr
      cases hr' : r.expression with
      | wholeText =>
        -- A whole text reads its own property only, and that is bound.
        rw [hr', Expression.reads, List.mem_singleton] at hm
        subst hm
        have hsame := (Table.get?_eq_some_iff (t := ⟨as⟩) h.names).mpr hn
        rw [(Table.get?_eq_some_iff (t := ⟨as⟩) h.names).mpr hmem] at hsame
        cases hsame
      | concat fragments =>
        refine absurd hdriver (unread e he record hrecord m' ?_)
        rw [hexpression, hr']
        rwa [hr', Expression.reads] at hm

end Bound

end Blueprint

theorem Renamed.tree?_eq {d₀ e₀ d e : Document} {f : NodeId → NodeId} {s : Shape} {i : Instance}
    (t : Renamed d₀ e₀ f [s] d e [i]) : e.tree? (i.rename f).root = d.tree? i.root := by
  have hright := t.right
  rw [List.map_singleton, List.map_singleton] at hright
  rw [← t.left.root_eq, ← hright.root_eq, t.left.grown.head_holds.tree? t.left.grown.head_nodup,
    hright.grown.head_holds.tree? hright.grown.head_nodup,
    treeAt_rename fun x hx => t.labels x (by simpa using hx)]

namespace Instance

variable {s : Stage} {i : Instance} {b : Blueprint}

/-! ### Fresh instances -/

def planted (s : Stage) (b : Blueprint) (className : String) (component : Component)
    (registry : Registry) : Stage × Instance :=
  let (d, root) := s.document.graft b.skeleton
  let (s, i, _) := (Instance.new root className component registry).bind (s.withDocument d) b root
  (s, i)

def fresh (b : Blueprint) (className : String) (component : Component) (registry : Registry)
    (values : List (String × Json)) : Outcome :=
  let (s, i) := planted ⟨.empty, []⟩ b className component registry
  assignAllWith (build registry) s i values

/-- What an extension by a blueprint comes to, if the instance has none of its properties before. -/
structure AddsFreshChild (s : Stage) (i : Instance) (b : Blueprint) (fresh : Outcome) : Prop where
  success : fresh.error = none
  /-- There is one more child, behind the others. -/
  child : (i.extend s b).1.stage.document.children i.root =
    s.document.children i.root ++ [(i.extend s b).2]
  /-- It has the labels of the fresh instance, live values included, and the same trees in regions. -/
  tree : ∃ t, (i.extend s b).1.stage.document.tree? (i.extend s b).2 = some t ∧
    fresh.stage.document.tree? fresh.self.root = some t
  /-- Every other node is as it was. -/
  rest : ∀ x n, s.document.node? x = some n → (i.extend s b).1.stage.document.node? x =
    some { n with children := n.children ++ if x = i.root then [(i.extend s b).2] else [] }
  others : ∀ n ∉ b.exposures.map Exposure.name,
    (i.extend s b).1.self.accessors.get? n = i.accessors.get? n
  values : ∀ n, (i.extend s b).1.self.get? n = i.get? n

/-! ### A fresh instance next to others -/

section Planted

variable {c : Shape} {as : List (String × Accessor Instance)} {className : String}
  {component : Component} {registry : Registry} {values : List (String × Json)}

theorem fresh_alike (hb : b.IsCompiled) (hs : s.document.Tidy) (className : String)
    (component : Component) (registry : Registry) (values : List (String × Json)) :
    let q := planted s b className component registry
    let o := assignAllWith (build registry) q.1 q.2 values
    (fresh b className component registry values).error = o.error ∧
      (fresh b className component registry values).stage.document.tree?
        (fresh b className component registry values).self.root = o.stage.document.tree? o.self.root := by
  intro q o
  obtain ⟨watch, hplanted⟩ := LockstepAt.plant (s := s.withDocument (s.document.graft b.skeleton).1)
    (t := ⟨(Document.empty.graft b.skeleton).1, []⟩) Blueprint.IsCompiled hs tidy_empty hb
    (fun _ _ hregion => hb.region hregion) rfl rfl className component registry
  have hall := hplanted.assignAll (fun _ hview => build_alike registry hview) values
  obtain ⟨f, _, j, hg, renamed, hk, -⟩ := hall.lockstepAt.exists_state
  have htree := renamed.tree?_eq
  rw [Option.some.inj hg, ← hk] at htree
  exact ⟨hall.error.symm, htree⟩

theorem planted_eq (hid : c.id = (s.document.graft b.skeleton).2)
    (hbound : b.Bound (s.document.graft b.skeleton).1 c as) (className : String)
    (component : Component) (registry : Registry) :
    (planted s b className component registry).1.document = (s.document.graft b.skeleton).1 ∧
      (planted s b className component registry).2 =
        ⟨c.id, className, component, .empty, ⟨as⟩, registry⟩ := by
  unfold planted
  dsimp only [Instance.bind]
  rw [← hid]
  obtain ⟨hstage, hself⟩ := hbound.bindExposures_eq
    (s := s.withDocument (s.document.graft b.skeleton).1)
    (i := Instance.new c.id className component registry) (fun _ => rfl) .nil fun _ _ hn => by cases hn
  exact ⟨congrArg Stage.document hstage, hself⟩

theorem pictureOf_planted (hc : s.document.Copies (s.document.graft b.skeleton).1 c b.skeleton)
    (hid : c.id = (s.document.graft b.skeleton).2)
    (hbound : b.Bound (s.document.graft b.skeleton).1 c as) (className : String)
    (component : Component) (registry : Registry) :
    PictureOf s.document as c (planted s b className component registry).1.document
      (planted s b className component registry).2 (.ofCopy (s.document.graft b.skeleton).1) := by
  obtain ⟨hdocument, hself⟩ := planted_eq hid hbound className component registry
  rw [hdocument, hself]
  have hlayout : (⟨c.id, className, component, .empty, ⟨as⟩, registry⟩ : Instance).Layout s.document
      (s.document.graft b.skeleton).1 as c fun _ => [] :=
    layout_of_handles hc.grown rfl rfl hbound.childless hbound.handles
  exact hlayout.pictureOf

theorem tree?_fresh (hb : b.IsCompiled) (hs : s.document.Tidy)
    (hc : s.document.Copies (s.document.graft b.skeleton).1 c b.skeleton)
    (hid : c.id = (s.document.graft b.skeleton).2)
    (hbound : b.Bound (s.document.graft b.skeleton).1 c as) (className : String)
    (component : Component) (registry : Registry) (values : List (String × Json)) :
    (fresh b className component registry values).error.isSome =
        (values.any fun e => fails (alone registry) as e.1 e.2) ∧
      (fresh b className component registry values).stage.document.tree?
          (fresh b className component registry values).self.root =
        some ((Change.applyAll (.ofCopy (s.document.graft b.skeleton).1)
          (changesOf (alone registry) as values)).treeOf c) := by
  obtain ⟨herror, htree⟩ := fresh_alike hb hs className component registry values
  have hplanted := pictureOf_planted hc hid hbound className component registry
  have hgrows : ∀ n a view, (n, .iterating a view []) ∈ as →
      (build registry).Grows view (alone registry view) := fun n a view hmem =>
    build_grows registry (hbound.isCompiled hb n a view hmem)
  rw [herror, htree]
  exact ⟨hplanted.error_assignAll values hgrows, (hplanted.assignAll hgrows values).tree?⟩

end Planted

/-! ### The same values -/

theorem mem_heldValues_iff {n : String} {v : Json} (hn : n ∈ b.exposures.map Exposure.name) :
    (n, v) ∈ i.heldValues b ↔ i.get? n = some v := by
  refine ⟨fun h => (mem_heldValues h).2, fun hv => ?_⟩
  obtain ⟨x, hx, rfl⟩ := List.mem_map.mp hn
  rw [heldValues_eq, List.mem_filterMap]
  exact ⟨x, hx, by rw [hv]; rfl⟩

section Values

variable {d : Document} {c : Shape} {as : List (String × Accessor Instance)}
  (grow : Blueprint → Json → Option Tree) {values : List (String × Json)}
  {label label' : NodeId → Label} {value : String → Option Json}

theorem exists_bound_of_change (h : b.Bound d c as) (unread : b.ReadsNoDriver) {n m : String} {v : Json}
    {ls : List BoundLocation} (hmem : .inscribe n v ls ∈ values.map fun e => changeOf grow as e.1 e.2)
    {r : BoundLocation} (hr : r ∈ ls) (hm : m ∈ r.expression.reads n) :
    ∃ ls', r ∈ ls' ∧ (m, .bound ls') ∈ as := by
  obtain ⟨e, -, he⟩ := List.mem_map.mp hmem
  obtain ⟨rfl, hbound⟩ := exists_bound_of_inscribe h.names he hr
  obtain ⟨ls', hls'⟩ := h.exists_bound_of_reads unread hbound hr hm
  exact ⟨ls', h.wired.shared _ _ _ _ _ hbound hr hls' hm, hls'⟩

/-- A bound property has the same value in the end, if the values are taken that it could have had from the
start. -/
theorem value_assigned (h : b.Bound d c as) (hdiffer :
      (values.map fun e => changeOf grow as e.1 e.2).Pairwise Change.Differ)
    (htaken : Change.Taken value (values.map fun e => changeOf grow as e.1 e.2))
    {m : String} {ls : List BoundLocation} (hbound : (m, .bound ls) ∈ as)
    (held : ∀ v, (m, v) ∈ values ↔ value m = some v) :
    (Change.applyAll ⟨label', fun _ => [], fun _ => none⟩
      (values.map fun e => changeOf grow as e.1 e.2)).value m = value m := by
  cases hw : value m with
  | none =>
    refine Change.value_applyAll_of_not_taking ⟨label', fun _ => [], fun _ => none⟩
      fun ch hch w htaking => ?_
    have hsome := htaken ch hch m w htaking
    rw [hw] at hsome
    cases hsome
  | some w =>
    have hmem := List.mem_map_of_mem (f := fun e => changeOf grow as e.1 e.2) ((held w).mpr hw)
    refine Change.value_applyAll_of_taking _ hdiffer hmem ?_
    rw [changeOf_of_bound h.names hbound]
    rfl

/-- The values of a blueprint's properties make the same of a copy, whether they are there from the start
or come one after another. -/
theorem treeOf_assigned (h : b.Bound d c as) (unread : b.ReadsNoDriver)
    (labels : ∀ x ∈ c.ids, label x = label' x) (hn : (values.map (·.1)).Nodup)
    (held : ∀ n ∈ as.map (·.1), ∀ v, (n, v) ∈ values ↔ value n = some v)
    (exposed : values.map (·.1) ⊆ as.map (·.1)) :
    (Change.applyAll ⟨label, fun _ => [], value⟩
        (values.map fun e => changeOf grow as e.1 e.2)).treeOf c =
      (Change.applyAll ⟨label', fun _ => [], fun _ => none⟩
        (values.map fun e => changeOf grow as e.1 e.2)).treeOf c := by
  have hdiffer : (values.map fun e => changeOf grow as e.1 e.2).Pairwise Change.Differ :=
    differ_changes hn
  have htaken : Change.Taken value (values.map fun e => changeOf grow as e.1 e.2) := by
    intro ch hch n v htaking
    obtain ⟨⟨n', v'⟩, he, rfl⟩ := List.mem_map.mp hch
    obtain ⟨rfl, rfl⟩ := Prod.mk.inj (taking?_changeOf htaking)
    exact (held n (exposed (List.mem_map_of_mem he)) v).mp he
  have hfirst := htaken.settled (p := ⟨label, fun _ => [], value⟩)
  have hvalue := htaken.value_applyAll (p := ⟨label, fun _ => [], value⟩)
  rw [← hvalue] at hfirst
  refine Change.treeOf_applyAll_congr labels (fun _ _ => rfl) hdiffer hfirst
    (Change.settled_of_reads hdiffer fun ch hch n v ls hinscribe r hr m hm c' hc' w htaking => ?_)
    fun n v ls hmem r hr m hm => ?_
  · left
    subst hinscribe
    obtain ⟨ls', hr', hls'⟩ := exists_bound_of_change grow h unread hch hr hm
    obtain ⟨⟨m', w'⟩, -, rfl⟩ := List.mem_map.mp hc'
    obtain ⟨rfl, rfl⟩ := Prod.mk.inj (taking?_changeOf htaking)
    rw [changeOf_of_bound h.names hls']
    exact hr'
  · obtain ⟨ls', -, hls'⟩ := exists_bound_of_change grow h unread hmem hr hm
    rw [hvalue]
    exact (value_assigned grow h hdiffer htaken hls'
      (held m (List.mem_map_of_mem (f := (·.1)) hls'))).symm

end Values

section Installed

variable {base : Document} {t c : Shape} {j : Instance} {way : List (String × Nat)}
  {as : List (String × Accessor Instance)}

theorem install_eq (h : Owned base s.document [t] [j]) (hg : j.descend? way = some i)
    (new : ∀ n ∈ b.exposures.map Exposure.name, i.hasProperty n = false)
    (hc : s.document.Copies (s.document.graft b.skeleton).1 c b.skeleton)
    (hid : c.id = (s.document.graft b.skeleton).2)
    (hbound : b.Bound (s.document.graft b.skeleton).1 c as) :
    (i.install s b).1.document = (s.document.graft b.skeleton).1.append i.root c.id ∧
      (i.install s b).2 = { i with accessors := ⟨i.accessors.entries ++ as⟩ } := by
  unfold install
  dsimp only [Instance.bind]
  rw [← hid]
  have hmirrors := h.mirrors_attach hg hc
  obtain ⟨hstage, hself⟩ := hbound.bindExposures_eq (i := i)
    (s := s.withDocument ((s.document.graft b.skeleton).1.append i.root c.id))
    (fun path => hmirrors.decode?_eq c.id_mem_ids path)
    ((h.embedded j List.mem_cons_self).descend? hg).1.names fun n hn hmem => by
      have hnone := new n hn
      rw [hasProperty, Table.contains_iff.mpr hmem] at hnone
      cases hnone
  exact ⟨congrArg Stage.document hstage, hself⟩

theorem pictureOf_installed (h : Owned base s.document [t] [j]) (hg : j.descend? way = some i)
    (hc : s.document.Copies (s.document.graft b.skeleton).1 c b.skeleton)
    (hbound : b.Bound (s.document.graft b.skeleton).1 c as) :
    PictureOf base as (t.extendAt i.root [c]) ((s.document.graft b.skeleton).1.append i.root c.id)
      { i with root := t.id, accessors := ⟨as⟩ }
      ⟨((s.document.graft b.skeleton).1.append i.root c.id).labelAt, fun _ => [], i.values.get?⟩ := by
  obtain ⟨hattached, -⟩ := h.attach hg hc
  have hroot := h.mem_ids_of_own hg .refl
  have hlayout : ({ i with root := t.id, accessors := ⟨as⟩ } : Instance).Layout base
      ((s.document.graft b.skeleton).1.append i.root c.id) as (t.extendAt i.root [c]) fun _ => [] := by
    refine layout_of_handles hattached.grown ?_ rfl hbound.childless fun e he x hx => ?_
    · rw [Shape.extendAt, Shape.id_extendBy]
    · exact Shape.mem_ids_extendAt.mpr (.inr ⟨hroot, by simpa using hbound.handles e he x hx⟩)
  exact hlayout.pictureOf

theorem PictureOf.node?_eq {d d' : Document} {own : Shape} {p p' : Picture} {k : Instance}
    (h : PictureOf base as own d i p) (hgrown : Grown base d [own]) (h' : PictureOf base as own d' k p')
    {x : NodeId} {n : Node} (hx : d.node? x = some n) (label : p'.label x = p.label x)
    (hung : p'.hung x = []) : d'.node? x = some n := by
  obtain ⟨⟨more, hs, hhung⟩, hlabels, -⟩ := h'
  rw [← hx]
  by_cases hown : x ∈ own.ids
  · refine hgrown.head_holds.node?_extendBy hs.grown.head_holds hown ?_ ?_
    · have hnone := hhung x hown
      rw [hung] at hnone
      exact List.forall₂_nil_right_iff.mp hnone
    · rw [hlabels x hown, label, h.labels x hown]
  · exact hgrown.keeps_apart hs.grown hx (by simpa using hown)

/-- In the end all that the extension has written and built is in the copy. -/
theorem pictureOf_extend (h : Owned base s.document [t] [j]) (hg : j.descend? way = some i)
    (hb : b.IsCompiled) (new : ∀ n ∈ b.exposures.map Exposure.name, i.hasProperty n = false)
    (hc : s.document.Copies (s.document.graft b.skeleton).1 c b.skeleton)
    (hid : c.id = (s.document.graft b.skeleton).2)
    (hbound : b.Bound (s.document.graft b.skeleton).1 c as)
    (success : (i.extend s b).1.error = none) :
    (∃ k, PictureOf base as (t.extendAt i.root [c]) (i.extend s b).1.stage.document k
        (Change.applyAll
          ⟨((s.document.graft b.skeleton).1.append i.root c.id).labelAt, fun _ => [], i.values.get?⟩
          ((i.heldValues b).map fun e => changeOf (alone i.registry) as e.1 e.2))) ∧
      ∀ e ∈ i.heldValues b, fails (alone i.registry) as e.1 e.2 = false := by
  obtain ⟨hdocument, hself⟩ := install_eq h hg new hc hid hbound
  have hequipped := equipped_install s i b
  have hgrows : ∀ n a view, (n, .iterating a view []) ∈ as →
      (build i.registry).Grows view (alone i.registry view) := fun n a view hmem =>
    build_grows i.registry (hbound.isCompiled hb n a view hmem)
  have hinstalled := pictureOf_installed h hg hc hbound
  rw [← hdocument] at hinstalled ⊢
  -- For the new properties the instance is as good as one over the whole tree.
  have hagree : AgreeOn (b.exposures.map Exposure.name) (i.install s b).2
      { i with root := t.id, accessors := ⟨as⟩ } := by
    rw [hself]
    refine ⟨rfl, fun n hn => (Table.get?_append_of_not_mem fun hmem => ?_).symm⟩
    have hnone := new n hn
    rw [hasProperty, Table.contains_iff.mpr hmem] at hnone
    cases hnone
  rw [i.extend_eq s b, hequipped.heldValues_eq, hequipped.registry] at success ⊢
  exact hagree.pictureOf_assignAll hgrows hinstalled (i.nodup_heldValues hb).2 success

end Installed

/-- An extension by a template of whose properties the instance has none puts a child behind the others
of its root that is the same as a fresh instance with the same values. -/
theorem addsFreshChild_extend (h : Store.Reached s.document i) (hb : b.IsCompiled)
    (new : ∀ n ∈ b.exposures.map Exposure.name, i.hasProperty n = false) (unread : b.ReadsNoDriver)
    (success : (i.extend s b).1.error = none) (className : String) (component : Component) :
    i.AddsFreshChild s b (fresh b className component i.registry (i.heldValues b)) := by
  obtain ⟨S, watch, e, k, -, hlock⟩ := h.exists_lockstepAt
  obtain ⟨_, t, j, hg, renamed, -⟩ := hlock.exists_state
  have howned := renamed.left
  obtain ⟨c, hc, hid⟩ := howned.grown.tidy.graft b.skeleton
  obtain ⟨as, hbound⟩ := hb.exists_bound hc
  obtain ⟨hattached, hlabels⟩ := howned.attach hg hc
  have hroot : i.root ∈ t.ids := howned.mem_ids_of_own hg .refl
  have hinstalled := pictureOf_installed howned hg hc hbound
  obtain ⟨⟨w, hlast⟩, hsuccess⟩ := pictureOf_extend howned hg hb new hc hid hbound success
  have hnone : ((i.heldValues b).any fun e => fails (alone i.registry) as e.1 e.2) = false := by
    rw [List.any_eq_false]
    exact fun e he => Bool.eq_false_iff.mp (hsuccess e he)
  obtain ⟨hfreshError, hfreshTree⟩ := tree?_fresh hb howned.grown.tidy hc hid hbound className component
    i.registry (i.heldValues b)
  rw [hnone] at hfreshError
  rw [changesOf_of_any hnone] at hfreshTree
  have hsame : ∀ x ∈ c.ids, ((s.document.graft b.skeleton).1.append i.root c.id).labelAt x =
      (s.document.graft b.skeleton).1.labelAt x := fun x _ => by rw [labelAt, labelAt, hlabels]
  have hheld : ∀ n ∈ as.map (·.1), ∀ v, (n, v) ∈ i.heldValues b ↔ i.values.get? n = some v :=
    fun n hn v => mem_heldValues_iff (hbound.map_fst ▸ hn)
  have htree := treeOf_assigned (alone i.registry) hbound unread hsame (i.nodup_heldValues hb).1 hheld
    (hbound.map_fst ▸ (i.nodup_heldValues hb).2)
  have hrest : ∀ x n, s.document.node? x = some n → (i.extend s b).1.stage.document.node? x =
      some { n with children := n.children ++ if x = i.root then [(i.extend s b).2] else [] } := by
    intro x n hx
    have hfresh : x ∉ c.ids := fun hmem => by
      rw [hc.fresh x hmem] at hx
      cases hx
    have hgrown : Grown _ (s.document.graft b.skeleton).1 [t, c] := howned.grown.append hc.grown
    have hnode := hgrown.node?_attach hroot x
    have hne : x ≠ c.id := fun e => hfresh (e ▸ c.id_mem_ids)
    rw [hc.frame x hfresh, hx, Option.map_some, if_neg hne] at hnode
    have hmisses : ∀ ch ∈ (i.heldValues b).map (fun e => changeOf (alone i.registry) as e.1 e.2),
        ch.Misses x := fun ch hch => by
      obtain ⟨e, -, rfl⟩ := List.mem_map.mp hch
      exact misses_changeOf hbound.names fun e he hx => hfresh (hbound.handles e he x hx)
    rw [hinstalled.node?_eq hattached.grown hlast hnode (Change.label_applyAll_of_misses hmisses)
      (Change.hung_applyAll_of_misses hmisses rfl), hid]
    by_cases hxroot : x = i.root
    · rw [if_pos hxroot, if_pos hxroot]
      rfl
    · rw [if_neg hxroot, if_neg hxroot, List.append_nil]
  refine ⟨?_, ?_, ⟨_, ?_, hfreshTree⟩, hrest, (extend_keeps s i b).1, (extend_keeps s i b).2⟩
  · exact Option.not_isSome_iff_eq_none.mp (Bool.eq_false_iff.mp hfreshError)
  · obtain ⟨n, hn⟩ := howned.grown.head_holds.live _ hroot
    rw [children_of_node? (hrest _ n hn), children_of_node? hn, if_pos rfl]
  · have hchild := hlast.tree?_within (hattached.grown.head_holds.within_extendAt hroot)
    rw [htree, hid] at hchild
    exact hchild

end Instance

namespace Store

def captionedText : String :=
  "<ul class=\"$\x7bkind\x7d of $\x7btitle\x7d\"><li data-repeat=\"rows\">$\x7bname\x7d</li></ul>"

def hostActs : List Act :=
  [.host "card" .standard (.node (.element "section") [.node (.element "p") []]) "Component",
    .ask "card" [] (.set "title" (.string "t")), .ask "card" [] (.set "rows" (.array twoRows))]

theorem compiled_hostActs : ∀ a ∈ hostActs, a.Compiled := by
  intro a ha
  simp only [hostActs, List.mem_cons, List.not_mem_nil, or_false] at ha
  rcases ha with rfl | rfl | rfl <;> trivial

/-- What comes of the extension is seen in a copy whose root is where another node was before. -/
theorem addsFreshChild_extend_hostActs :
    ∃ b log i, Blueprint.compile .standard captionedText none = (.ok b, log) ∧
      (run ⟨emptiedDocument, .empty⟩ hostActs).find? "card" [] = some i ∧
      let s : Stage := ⟨(run ⟨emptiedDocument, .empty⟩ hostActs).document, []⟩
      (i.heldValues b).map (·.1) = ["title", "rows"] ∧
        i.AddsFreshChild s b (Instance.fresh b "Component" ⟨.generic, []⟩ i.registry (i.heldValues b)) := by
  let host := (run ⟨emptiedDocument, .empty⟩ hostActs).find? "card" []
  let s : Stage := ⟨(run ⟨emptiedDocument, .empty⟩ hostActs).document, []⟩
  obtain ⟨b, log, hcompile, hb, hcheck⟩ := exists_compiled_of_check captionedText (fun b =>
    decide b.ReadsNoDriver && host.any fun i =>
      b.exposures.all (fun e => !i.hasProperty e.name) &&
        (i.heldValues b).map (·.1) == ["title", "rows"] &&
        (i.extend s b).1.error.isNone) (by decide +kernel)
  rw [Bool.and_eq_true, decide_eq_true_eq, Option.any_eq_true] at hcheck
  obtain ⟨unread, i, found, hcheck⟩ := hcheck
  simp only [Bool.and_eq_true, List.all_eq_true, Bool.not_eq_true', beq_iff_eq,
    Option.isNone_iff_eq_none] at hcheck
  obtain ⟨⟨hnew, held⟩, success⟩ := hcheck
  obtain ⟨_, hcopies, -⟩ := tidy_empty.graft (.node (.element "p") [])
  have hreached : Reached s.document i :=
    ⟨emptiedDocument, hostActs, "card", [], hcopies.tidy.remove 0, compiled_hostActs, rfl, found⟩
  refine ⟨b, log, i, hcompile, found, held, Instance.addsFreshChild_extend hreached hb ?_ unread success _ _⟩
  intro n hn
  obtain ⟨e, he, rfl⟩ := List.mem_map.mp hn
  exact hnew e he

end Store

end LiveMarkup
