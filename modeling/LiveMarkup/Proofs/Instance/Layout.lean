import LiveMarkup.Instance.Build
import LiveMarkup.Proofs.Blueprint.Records
import LiveMarkup.Proofs.Document.Growth
import LiveMarkup.Proofs.Instance.Writing

/-!
# The layout of an instance

An instance consists of the nodes of its own skeleton and, behind the children of these, of the
subtrees of the instances that its regions hold. Each assignment either writes to places
of a bound property or puts new subtrees in place of those of one region, and a build that fails
leaves nothing behind.
-/

namespace LiveMarkup

open Document

namespace Table

variable {α β : Type} {t : Table α} {name : String}

theorem get?_map (f : α → β) (t : Table α) (name : String) :
    (t.map f).get? name = (t.get? name).map f := by
  rw [get?, get?, map, List.find?_map, Option.map_map, Option.map_map]
  rfl

theorem put_of_get? {v : α} (h : t.get? name = some v) : t.put name v = t := by
  obtain ⟨entries⟩ := t
  rw [put, mk.injEq]
  induction entries with
  | nil => cases h
  | cons e entries ih =>
    rw [putEntry]
    rw [get?, List.find?_cons] at h
    by_cases he : (e.1 == name) = true
    · rw [if_pos he]
      rw [he] at h
      obtain ⟨n, w⟩ := e
      obtain rfl : w = v := Option.some.inj h
      obtain rfl : n = name := by simpa using he
      rfl
    · rw [if_neg he]
      rw [Bool.not_eq_true] at he
      rw [he] at h
      rw [ih h]

theorem map_put (f : α → β) (t : Table α) (name : String) (v : α) :
    (t.put name v).map f = (t.map f).put name (f v) := by
  obtain ⟨entries⟩ := t
  rw [put, put, map, map, mk.injEq]
  induction entries with
  | nil => rfl
  | cons e entries ih =>
    rw [putEntry, List.map_cons, putEntry]
    by_cases he : (e.1 == name) = true
    · rw [if_pos he, if_pos he, List.map_cons]
    · rw [if_neg he, if_neg he, List.map_cons, ih]

end Table

def Accessor.emptied {ι : Type} : Accessor ι → Accessor ι
  | .bound locations => .bound locations
  | .iterating anchor view _ => .iterating anchor view []

/-- A build leaves one more tree in the document, of which `P` holds, or it leaves nothing. -/
structure Build.AddsTree (build : Build) (view : Blueprint) (P : Json → Tree → Prop) : Prop where
  built : ∀ {s s' : Stage} {item : Json} {i : Instance}, s.document.Tidy →
    build s view item = (s', .ok i) →
    ∃ t : Shape, t.id = i.root ∧ Grown s.document s'.document [t] ∧ P item (s'.document.treeAt t)
  failed : ∀ {s s' : Stage} {item : Json} {e : EngineError}, s.document.Tidy →
    build s view item = (s', .error e) → Grown s.document s'.document []

namespace Instance

theorem removeRoots_eq {d : Document} {is : List Instance} {ts : List Shape}
    (h : ts.map Shape.id = is.map Instance.root) :
    removeRoots d is = ts.foldl (fun d t => d.remove t.id) d := by
  have hids := congrArg (List.foldl Document.remove d) h
  rw [List.foldl_map, List.foldl_map] at hids
  exact hids.symm

theorem appendRoots_eq {d : Document} {a : NodeId} {is : List Instance} {ts : List Shape}
    (h : ts.map Shape.id = is.map Instance.root) :
    appendRoots d a is = ts.foldl (fun d t => d.append a t.id) d := by
  have hids := congrArg (List.foldl (fun d x => d.append a x) d) h
  rw [List.foldl_map, List.foldl_map] at hids
  exact hids.symm

variable {build : Build} {view : Blueprint} {P : Json → Tree → Prop}

theorem buildAll_ok (hb : build.AddsTree view P) {s s' : Stage} {items : List Json}
    {done batch : List Instance} (hs : s.document.Tidy)
    (h : buildAll build view s items done = (s', .ok batch)) :
    ∃ new ts, batch = done ++ new ∧ ts.map Shape.id = new.map Instance.root ∧
      Grown s.document s'.document ts ∧
      List.Forall₂ (fun item t => P item (s'.document.treeAt t)) items ts := by
  induction items generalizing s done with
  | nil =>
    rw [buildAll] at h
    obtain ⟨rfl, hbatch⟩ := Prod.mk.inj h
    refine ⟨[], [], ?_, rfl, .refl hs, .nil⟩
    rw [List.append_nil]
    exact (Except.ok.inj hbatch).symm
  | cons item items ih =>
    rw [buildAll] at h
    rcases hbuild : build s view item with ⟨s₁, e | i⟩
    · rw [hbuild] at h
      cases (Prod.mk.inj h).2
    · rw [hbuild] at h
      obtain ⟨t, hid, hgrown, htree⟩ := hb.built hs hbuild
      obtain ⟨new, ts, rfl, hids, hgrown', htrees⟩ := ih hgrown.tidy h
      refine ⟨i :: new, t :: ts, by simp, ?_, hgrown.append hgrown', .cons ?_ htrees⟩
      · rw [List.map_cons, List.map_cons, hid, hids]
      · rw [treeAt_frame]
        · exact htree
        · intro x hx
          obtain ⟨n, hn⟩ := hgrown.head_holds.live x hx
          exact hgrown'.keeps hn

theorem buildAll_error (hb : build.AddsTree view P) {d : Document} {s s' : Stage} {items : List Json}
    {done : List Instance} {ts : List Shape} {e : EngineError} (hs : Grown d s.document ts)
    (hids : ts.map Shape.id = done.map Instance.root)
    (h : buildAll build view s items done = (s', .error e)) : Grown d s'.document [] := by
  induction items generalizing s done ts with
  | nil =>
    rw [buildAll] at h
    cases (Prod.mk.inj h).2
  | cons item items ih =>
    rw [buildAll] at h
    rcases hbuild : build s view item with ⟨s₁, e' | i⟩
    · rw [hbuild] at h
      have hall := hs.append (hb.failed hs.tidy hbuild)
      obtain ⟨rfl, -⟩ := Prod.mk.inj h
      rw [Stage.withDocument, removeRoots_eq hids]
      exact hall.removeAll
    · rw [hbuild] at h
      obtain ⟨t, hid, hgrown, -⟩ := hb.built hs.tidy hbuild
      refine ih (hs.append hgrown) ?_ h
      rw [List.map_append, List.map_append, hids]
      simp [hid]

/-- The instance consists of the nodes of `own` in `d`, with the subtrees `more x` of its regions behind
the children of each of these nodes `x`. All else is as in `d₀`. -/
structure Layout (d₀ d : Document) (as : List (String × Accessor Instance)) (own : Shape)
    (more : NodeId → List Shape) (i : Instance) : Prop where
  grown : Grown d₀ d [own.extendBy more]
  root : i.root = own.id
  accessors : i.accessors.map Accessor.emptied = ⟨as⟩
  owners : ∀ n ls, (n, .bound ls) ∈ as → ∀ r ∈ ls, r.place.owner ∈ own.ids
  anchors : ∀ n a v, (n, .iterating a v []) ∈ as → a ∈ own.ids
  children : ∀ n a v cs, i.accessors.get? n = some (.iterating a v cs) →
    ∀ c ∈ cs, ∃ t ∈ more a, t.id = c.root
  distinct : ∀ n a v cs n' a' v' cs', i.accessors.get? n = some (.iterating a v cs) →
    i.accessors.get? n' = some (.iterating a' v' cs') → n ≠ n' →
    ∀ c ∈ cs, ∀ c' ∈ cs', c.root ≠ c'.root

variable {d₀ d : Document} {as : List (String × Accessor Instance)} {own : Shape}
  {more : NodeId → List Shape} {i : Instance} {name : String}

/-- An instance consists of one tree if its properties are bound there and keep no instances. -/
theorem layout_of_grown (hgrown : Grown d₀ d [own]) (hroot : i.root = own.id)
    (haccessors : i.accessors = ⟨as⟩)
    (owners : ∀ n ls, (n, .bound ls) ∈ as → ∀ r ∈ ls, r.place.owner ∈ own.ids)
    (anchors : ∀ n a v cs, (n, .iterating a v cs) ∈ as → a ∈ own.ids ∧ cs = []) :
    i.Layout d₀ d as own fun _ => [] := by
  have hempty : ∀ n a v cs, i.accessors.get? n = some (.iterating a v cs) → cs = [] := by
    intro n a v cs hget
    rw [haccessors, Table.get?, Option.map_eq_some_iff] at hget
    obtain ⟨e, he, hac⟩ := hget
    have hmem : (e.1, Accessor.iterating a v cs) ∈ as := hac ▸ List.mem_of_find?_eq_some he
    exact (anchors _ _ _ _ hmem).2
  refine ⟨by rwa [Shape.extendBy_nothing], hroot, ?_, owners, fun n a v hmem => (anchors n a v _ hmem).1,
    fun n a v cs hget c hc => ?_, fun n a v cs n' a' v' cs' hget _ _ c hc => ?_⟩
  · have hemptied : as.map (fun e => (e.1, e.2.emptied)) = as.map id := by
      refine List.map_congr_left fun e he => ?_
      obtain ⟨n, ls | ⟨a, v, cs⟩⟩ := e
      · rfl
      · rw [(anchors n a v cs he).2]
        rfl
    rw [haccessors, Table.map, hemptied, List.map_id]
  · rw [hempty _ _ _ _ hget] at hc
    cases hc
  · rw [hempty _ _ _ _ hget] at hc
    cases hc

namespace Layout

theorem nodup (h : i.Layout d₀ d as own more) :
    (own.ids ++ (own.ids.flatMap more).flatMap Shape.ids).Nodup := by
  have hn := h.grown.head_nodup
  rwa [(Shape.ids_extendBy_perm more own).nodup_iff] at hn

theorem names (h : i.Layout d₀ d as own more) : i.accessors.names = as.map (·.1) := by
  have hnames := congrArg Table.names h.accessors
  rwa [Table.names_map] at hnames

theorem not_mem_own (h : i.Layout d₀ d as own more) {a : NodeId} (ha : a ∈ own.ids) {t : Shape}
    (ht : t ∈ more a) : ∀ x ∈ t.ids, x ∉ own.ids := by
  intro x hx hown
  have hn := h.nodup
  rw [List.nodup_append] at hn
  have hmem : x ∈ (own.ids.flatMap more).flatMap Shape.ids :=
    List.mem_flatMap.mpr ⟨t, List.mem_flatMap.mpr ⟨a, ha, ht⟩, hx⟩
  exact hn.2.2 x hown x hmem rfl

theorem mem_of_get? (h : i.Layout d₀ d as own more) {ac : Accessor Instance}
    (hget : i.accessors.get? name = some ac) : (name, ac.emptied) ∈ as := by
  have hmap := Table.get?_map Accessor.emptied i.accessors name
  rw [h.accessors, hget, Option.map_some, Table.get?, Option.map_eq_some_iff] at hmap
  obtain ⟨e, he, hac⟩ := hmap
  have hname : e.1 = name := by simpa using List.find?_some he
  rw [← hname, ← hac]
  exact List.mem_of_find?_eq_some he

theorem anchor_mem (h : i.Layout d₀ d as own more) {a : NodeId} {view : Blueprint}
    {cs : List Instance} (hget : i.accessors.get? name = some (.iterating a view cs)) :
    a ∈ own.ids := h.anchors _ _ _ (h.mem_of_get? hget)

theorem receive (h : i.Layout d₀ d as own more) (k : Hook) : (i.receive k).Layout d₀ d as own more :=
  ⟨h.grown, h.root, h.accessors, h.owners, h.anchors, h.children, h.distinct⟩

theorem withValue (h : i.Layout d₀ d as own more) (n : String) (v : Json) :
    (i.withValue n v).Layout d₀ d as own more :=
  ⟨h.grown, h.root, h.accessors, h.owners, h.anchors, h.children, h.distinct⟩

theorem relabel (h : i.Layout d₀ d as own more) {d' : Document} (tidy : d'.Tidy)
    (links : ∀ x, d'.links? x = d.links? x)
    (frame : ∀ x ∉ (own.extendBy more).ids, d'.node? x = d.node? x) :
    i.Layout d₀ d' as own more where
  grown := h.grown.relabel tidy links fun x hx => frame x (by simpa using hx)
  root := h.root
  accessors := h.accessors
  owners := h.owners
  anchors := h.anchors
  children := h.children
  distinct := h.distinct

theorem keep (h : i.Layout d₀ d as own more) {d' : Document} (hd : Grown d d' []) :
    i.Layout d₀ d' as own more :=
  h.relabel hd.tidy (fun x => by rw [links?, links?, hd.frame x (by simp)])
    fun x _ => hd.frame x (by simp)

theorem write (h : i.Layout d₀ d as own more) {ls : List BoundLocation}
    (hget : i.accessors.get? name = some (.bound ls)) (values : Table Json) :
    i.Layout d₀ (writeLocations d name values ls) as own more := by
  have howners := h.owners _ _ (h.mem_of_get? hget)
  refine h.relabel (tidy_writeLocations h.grown.tidy ls) (links?_writeLocations d ls) ?_
  intro x hx
  have hnone : ls.filter (·.place.owner = x) = [] := by
    rw [List.filter_eq_nil_iff]
    intro r hr
    rw [decide_eq_true_eq]
    rintro rfl
    exact hx (Shape.mem_ids_extendBy.mpr (.inl (howners r hr)))
  rw [node?_writeLocations, hnone]
  cases d.node? x <;> rfl

section Regeneration

variable {a : NodeId} {view : Blueprint} {former batch : List Instance} {ts : List Shape}

theorem exists_of_former (h : i.Layout d₀ d as own more)
    (hget : i.accessors.get? name = some (.iterating a view former)) :
    ∀ x ∈ former.map Instance.root, ∃ t ∈ more a, t.id = x := by
  intro x hx
  obtain ⟨c, hc, rfl⟩ := List.mem_map.mp hx
  exact h.children _ _ _ _ hget c hc

theorem without_former (h : i.Layout d₀ d as own more)
    (hget : i.accessors.get? name = some (.iterating a view former)) :
    (own.extendBy more).without (fun x => (former.map Instance.root).contains x) =
      own.extendBy fun x => (more x).filter fun t => !(former.map Instance.root).contains t.id := by
  have ha : a ∈ own.ids := h.anchor_mem hget
  refine Shape.without_extendBy (fun x hx => ?_) fun x hx c hc hcid y hy => ?_
  · rw [← Bool.not_eq_true, List.contains_iff_mem]
    intro hmem
    obtain ⟨t, ht, rfl⟩ := h.exists_of_former hget x hmem
    exact h.not_mem_own ha ht _ t.id_mem_ids hx
  · rw [← Bool.not_eq_true, List.contains_iff_mem] at hcid ⊢
    intro hmem
    obtain ⟨t, ht, rfl⟩ := h.exists_of_former hget y hmem
    have hn := h.nodup
    rw [List.nodup_append] at hn
    obtain rfl := Shape.eq_of_mem_ids hn.2.1 (List.mem_flatMap.mpr ⟨a, ha, ht⟩)
      (List.mem_flatMap.mpr ⟨x, hx, hc⟩) t.id_mem_ids hy
    exact hcid hmem

theorem grown_regenerate (h : i.Layout d₀ d as own more)
    (hget : i.accessors.get? name = some (.iterating a view former)) {d' : Document}
    (hids : ts.map Shape.id = batch.map Instance.root) (hts : Grown d d' ts) :
    Grown d₀ (appendRoots (removeRoots d' former) a batch)
        [own.extendBy fun x =>
          ((more x).filter fun t => !(former.map Instance.root).contains t.id) ++
            if x = a then ts else []] ∧
      ∀ x, x ∈ (own.extendBy fun x =>
          (more x).filter fun t => !(former.map Instance.root).contains t.id).ids ∨
        x ∉ (own.extendBy more).ids →
        (appendRoots (removeRoots d' former) a batch).label? x = d'.label? x := by
  have ha : a ∈ own.ids := h.anchor_mem hget
  have hxs : ∀ x ∈ former.map Instance.root, x ≠ (own.extendBy more).id ∧
      (x ∈ (own.extendBy more).ids ∨ d'.node? x = none) := by
    intro x hx
    obtain ⟨t, ht, rfl⟩ := h.exists_of_former hget x hx
    refine ⟨fun e => ?_, .inl (Shape.mem_ids_extendBy.mpr (.inr ⟨a, ha, ?_⟩))⟩
    · rw [Shape.id_extendBy] at e
      exact h.not_mem_own ha ht _ t.id_mem_ids (e ▸ own.id_mem_ids)
    · exact List.mem_flatMap.mpr ⟨t, ht, t.id_mem_ids⟩
  have hall : Grown d₀ d' (own.extendBy more :: ts) := h.grown.append hts
  obtain ⟨hcut, hcutLabel⟩ := hall.cutAll hxs
  rw [h.without_former hget] at hcut hcutLabel
  rw [← List.append_nil ts] at hcut
  obtain ⟨hattach, hattachLabel⟩ := hcut.attachAll (Shape.mem_ids_extendBy.mpr (.inl ha))
  have hout : ∀ x ∈ own.ids,
      ∀ c ∈ (more x).filter (fun t => !(former.map Instance.root).contains t.id), a ∉ c.ids :=
    fun x hx c hc hac => h.not_mem_own hx (List.mem_of_mem_filter hc) a hac ha
  rw [Shape.extendAt_extendBy ts hout] at hattach
  have hremove : removeRoots d' former = (former.map Instance.root).foldl Document.remove d' :=
    List.foldl_map.symm
  rw [appendRoots_eq hids, hremove]
  refine ⟨hattach, fun x hx => ?_⟩
  rw [hattachLabel]
  exact hcutLabel x hx

theorem root_ne_of_batch (h : i.Layout d₀ d as own more) {d' : Document}
    (hids : ts.map Shape.id = batch.map Instance.root) (hts : Grown d d' ts) {n : String}
    {a' : NodeId} {v : Blueprint} {cs : List Instance}
    (hn : i.accessors.get? n = some (.iterating a' v cs)) :
    ∀ c ∈ cs, ∀ c' ∈ batch, c.root ≠ c'.root := by
  intro c hc c' hc' e
  obtain ⟨t, ht, hid⟩ := h.children _ _ _ _ hn c hc
  have hmem : t.id ∈ (own.extendBy more).ids := Shape.mem_ids_extendBy.mpr
    (.inr ⟨a', h.anchor_mem hn, List.mem_flatMap.mpr ⟨t, ht, t.id_mem_ids⟩⟩)
  obtain ⟨m, hm⟩ := h.grown.head_holds.live _ hmem
  have hroot : c'.root ∈ ts.map Shape.id := hids ▸ List.mem_map_of_mem hc'
  obtain ⟨t', ht', hid'⟩ := List.mem_map.mp hroot
  refine hts.not_mem_of_live hm (List.mem_flatMap.mpr ⟨t', ht', ?_⟩)
  rw [hid, e, ← hid']
  exact t'.id_mem_ids

/-- The subtrees of a region are replaced by those of a new batch. -/
theorem regenerate (h : i.Layout d₀ d as own more)
    (hget : i.accessors.get? name = some (.iterating a view former)) {d' : Document}
    (hids : ts.map Shape.id = batch.map Instance.root) (hts : Grown d d' ts) :
    (i.withAccessor name (.iterating a view batch)).Layout d₀
      (appendRoots (removeRoots d' former) a batch) as own
      (fun x => ((more x).filter fun t => !(former.map Instance.root).contains t.id) ++
        if x = a then ts else []) := by
  refine ⟨(h.grown_regenerate hget hids hts).1, h.root, ?_, h.owners, h.anchors, ?_, ?_⟩
  · have hput := Table.map_put Accessor.emptied i.accessors name (.iterating a view batch)
    have hold := Table.get?_map Accessor.emptied i.accessors name
    rw [hget] at hold
    rw [withAccessor, hput, ← h.accessors]
    exact Table.put_of_get? hold
  · intro n a' v' cs hn c hc
    by_cases hname : n = name
    · subst hname
      rw [withAccessor, Table.get?_put_self] at hn
      obtain ⟨rfl, rfl, rfl⟩ := Accessor.iterating.inj (Option.some.inj hn)
      have hroot : c.root ∈ ts.map Shape.id := hids ▸ List.mem_map_of_mem hc
      obtain ⟨t, ht, hid⟩ := List.mem_map.mp hroot
      exact ⟨t, List.mem_append_right _ (by rwa [if_pos rfl]), hid⟩
    · rw [withAccessor, Table.get?_put_of_ne _ _ hname] at hn
      obtain ⟨t, ht, hid⟩ := h.children _ _ _ _ hn c hc
      refine ⟨t, List.mem_append_left _ (List.mem_filter.mpr ⟨ht, ?_⟩), hid⟩
      rw [Bool.not_eq_true', ← Bool.not_eq_true, List.contains_iff_mem, hid]
      intro hmem
      obtain ⟨c', hc', hroot⟩ := List.mem_map.mp hmem
      exact h.distinct _ _ _ _ _ _ _ _ hn hget hname c hc c' hc' hroot.symm
  · intro n a₁ v₁ cs n' a₂ v₂ cs' hn hn' hne c hc c' hc'
    by_cases hname : n = name
    · subst hname
      rw [withAccessor, Table.get?_put_self] at hn
      rw [withAccessor, Table.get?_put_of_ne _ _ (Ne.symm hne)] at hn'
      obtain ⟨rfl, rfl, rfl⟩ := Accessor.iterating.inj (Option.some.inj hn)
      exact (h.root_ne_of_batch hids hts hn' c' hc' c hc).symm
    · rw [withAccessor, Table.get?_put_of_ne _ _ hname] at hn
      by_cases hname' : n' = name
      · subst hname'
        rw [withAccessor, Table.get?_put_self] at hn'
        obtain ⟨rfl, rfl, rfl⟩ := Accessor.iterating.inj (Option.some.inj hn')
        exact h.root_ne_of_batch hids hts hn c hc c' hc'
      · rw [withAccessor, Table.get?_put_of_ne _ _ hname'] at hn'
        exact h.distinct _ _ _ _ _ _ _ _ hn hn' hne c hc c' hc'

end Regeneration

end Layout

/-- Why a region of the view does not take `v`, and the error that comes of it. -/
inductive Refusal (build : Build) (view : Blueprint) (v : Json) : Option EngineError → Prop where
  | noArray (kind : ∀ items, v ≠ .array items) : Refusal build view v none
  | failed {items : List Json} {item : Json} {s s' : Stage} {e e' : EngineError}
      (value : v = .array items) (mem : item ∈ items) (tidy : s.document.Tidy)
      (failure : build s view item = (s', .error e')) : Refusal build view v (some e)

/-- What comes of assigning `v` to a property. -/
inductive Assigned (build : Build) (P : Blueprint → Json → Tree → Prop) (s : Stage) (i : Instance)
    (name : String) (v : Json) : Outcome → Prop where
  | written {ls : List BoundLocation} (get : i.accessors.get? name = some (.bound ls)) :
      Assigned build P s i name v ⟨s.withDocument
        (writeLocations s.document name (i.values.put name v) ls),
        (i.withValue name v).notify name, none⟩
  | regenerated {a : NodeId} {view : Blueprint} {former batch : List Instance} {items : List Json}
      {s' : Stage} {d' : Document} {ts : List Shape}
      (get : i.accessors.get? name = some (.iterating a view former)) (value : v = .array items)
      (ids : ts.map Shape.id = batch.map Instance.root) (grown : Grown s.document d' ts)
      (trees : List.Forall₂ (fun item t => P view item (d'.treeAt t)) items ts)
      (document : s'.document = appendRoots (removeRoots d' former) a batch) :
      Assigned build P s i name v ⟨s', ((i.withAccessor name (.iterating a view batch)).withValue
        name v).notify name, none⟩
  | refused {a : NodeId} {view : Blueprint} {former : List Instance} {s' : Stage}
      {e : Option EngineError} (get : i.accessors.get? name = some (.iterating a view former))
      (reason : Refusal build view v e)
      (grown : Grown s.document s'.document []) : Assigned build P s i name v ⟨s', i, e⟩
  | kept (get : i.accessors.get? name = none) :
      Assigned build P s i name v ⟨s, i.withValue name v, none⟩

theorem exists_failure_of_buildAll (hb : build.AddsTree view P) {s s' : Stage} {items : List Json}
    {done : List Instance} {e : EngineError} (hs : s.document.Tidy)
    (h : buildAll build view s items done = (s', .error e)) :
    ∃ item ∈ items, ∃ s₁ s₂ e', s₁.document.Tidy ∧ build s₁ view item = (s₂, .error e') := by
  induction items generalizing s done with
  | nil => cases (Prod.mk.inj h).2
  | cons item items ih =>
    rw [buildAll] at h
    rcases hbuild : build s view item with ⟨s₁, e' | i⟩
    · exact ⟨item, List.mem_cons_self, s, s₁, e', hs, hbuild⟩
    · rw [hbuild] at h
      obtain ⟨t, -, hgrown, -⟩ := hb.built hs hbuild
      obtain ⟨item', hmem, hfailure⟩ := ih hgrown.tidy h
      exact ⟨item', List.mem_cons_of_mem _ hmem, hfailure⟩

theorem assignWith_assigned {P : Blueprint → Json → Tree → Prop} {s : Stage} {v : Json}
    (hs : s.document.Tidy)
    (hb : ∀ a view cs, i.accessors.get? name = some (.iterating a view cs) →
      build.AddsTree view (P view)) :
    Assigned build P s i name v (assignWith build s i name v) := by
  rw [assignWith]
  cases hget : i.accessors.get? name with
  | none => exact .kept hget
  | some accessor =>
    cases accessor with
    | bound ls => exact .written hget
    | iterating a view former =>
      dsimp only
      split
      · rename_i items
        rw [assignItems]
        rcases hall : buildAll build view s items [] with ⟨s₁, e | batch⟩
        · have hgrown := buildAll_error (hb _ _ _ hget) (.refl hs) rfl hall
          obtain ⟨item, hmem, s₂, s₃, e', htidy, hfailure⟩ :=
            exists_failure_of_buildAll (hb _ _ _ hget) hs hall
          exact .refused hget (.failed rfl hmem htidy hfailure) hgrown
        · obtain ⟨new, ts, rfl, hids, hgrown, htrees⟩ := buildAll_ok (hb _ _ _ hget) hs hall
          exact .regenerated hget rfl hids hgrown htrees rfl
      · rename_i hno
        exact .refused hget (.noArray fun items e => hno items e) (.refl hs)

theorem Layout.assigned {P : Blueprint → Json → Tree → Prop} {s : Stage} {v : Json} {o : Outcome}
    (h : i.Layout d₀ s.document as own more) (ha : Assigned build P s i name v o) :
    ∃ more', o.self.Layout d₀ o.stage.document as own more' := by
  cases ha with
  | written get => exact ⟨more, ((h.write get _).withValue name v).receive _⟩
  | regenerated get value ids grown trees document =>
    have hnew := h.regenerate get ids grown
    rw [← document] at hnew
    exact ⟨_, (hnew.withValue name v).receive _⟩
  | refused get reason grown => exact ⟨more, h.keep grown⟩
  | kept get => exact ⟨more, h.withValue name v⟩

/-! ### Runs of assignments -/

section Runs

variable (Q : Document → Instance → Prop)

theorem assignAllWith_preserves
    (step : ∀ s i name v, Q s.document i →
      Q (assignWith build s i name v).stage.document (assignWith build s i name v).self)
    (values : List (String × Json)) {s : Stage} (h : Q s.document i) :
    Q (assignAllWith build s i values).stage.document (assignAllWith build s i values).self := by
  induction values generalizing s i with
  | nil => exact h
  | cons p values ih =>
    have hstep := step s i p.1 p.2 h
    rw [assignAllWith]
    split
    · rename_i s' i' heq
      rw [heq] at hstep
      exact ih hstep
    · exact hstep

theorem takeAllWith_preserves
    (step : ∀ s i name v, Q s.document i →
      Q (assignWith build s i name v).stage.document (assignWith build s i name v).self)
    (data : Json) (names : List String) {s : Stage} (h : Q s.document i) :
    Q (takeAllWith build data s i names).1.document (takeAllWith build data s i names).2 := by
  induction names generalizing s i with
  | nil => exact h
  | cons n names ih =>
    rw [takeAllWith]
    split
    · exact ih h
    · rename_i v hv
      have hstep := step s i n v h
      split
      · rename_i s' i' heq
        rw [heq] at hstep
        exact ih hstep
      · rename_i s' i' e heq
        rw [heq] at hstep
        exact ih hstep

theorem configureWith_preserves
    (step : ∀ s i name v, Q s.document i →
      Q (assignWith build s i name v).stage.document (assignWith build s i name v).self)
    (told : ∀ d i k, Q d i → Q d (i.receive k)) (data : Json) {s : Stage} (h : Q s.document i) :
    Q (configureWith build s i data).1.document (configureWith build s i data).2 := by
  rw [configureWith]
  by_cases hnull : data.isNull = true
  · rw [if_pos hnull]
    exact told _ _ _ h
  · rw [if_neg hnull]
    exact told _ _ _ (takeAllWith_preserves Q step data _ h)

end Runs

end Instance

end LiveMarkup
