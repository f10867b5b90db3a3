import LiveMarkup.Proofs.Store.Engine
import LiveMarkup.Proofs.Picture.Basic

namespace LiveMarkup

open CompileContext Document Site

theorem mapM_eq_some_iff {α β : Type} {f : α → Option β} {as : List α} {bs : List β} :
    as.mapM f = some bs ↔ List.Forall₂ (fun a b => f a = some b) as bs := by
  induction as generalizing bs with
  | nil => cases bs <;> simp
  | cons a as ih => cases bs <;> simp [ih, Option.bind_eq_some_iff]

theorem mapM_eq_none_of_mem {α β : Type} {f : α → Option β} {as : List α} {a : α} (ha : a ∈ as)
    (h : f a = none) : as.mapM f = none := by
  rw [Option.eq_none_iff_forall_ne_some]
  intro bs hbs
  induction mapM_eq_some_iff.mp hbs with
  | nil => cases ha
  | @cons a' b as bs hb hrest ih =>
    rcases List.mem_cons.mp ha with rfl | ha
    · rw [h] at hb
      cases hb
    · exact ih ha (mapM_eq_some_iff.mpr hrest)

theorem exists_of_mem_mapM {α β : Type} {f : α → Option β} {as : List α} {bs : List β} {b : β}
    (h : as.mapM f = some bs) (hb : b ∈ bs) : ∃ a, f a = some b := by
  induction mapM_eq_some_iff.mp h with
  | nil => cases hb
  | @cons a b' as bs ha hrest ih =>
    rcases List.mem_cons.mp hb with rfl | hb
    · exact ⟨a, ha⟩
    · exact ih (mapM_eq_some_iff.mpr hrest) hb

structure Build.Grows (build : Build) (view : Blueprint) (grow : Json → Option Tree) : Prop where
  addsTree : build.AddsTree view fun item t => grow item = some t
  fails : ∀ {s s' : Stage} {item : Json} {e : EngineError}, s.document.Tidy →
    build s view item = (s', .error e) → grow item = none

namespace Instance

def Hangs (d : Document) (i : Instance) (t : Shape) (e : String × Tree) : Prop :=
  d.treeAt t = e.2 ∧ ∃ c ∈ i.children e.1, c.root = t.id

/-- What the instance comes to in `d` is the picture. -/
structure PictureOf (d₀ : Document) (as : List (String × Accessor Instance)) (own : Shape)
    (d : Document) (i : Instance) (p : Picture) : Prop where
  layout : ∃ more, i.Layout d₀ d as own more ∧
    ∀ x ∈ own.ids, List.Forall₂ (Hangs d i) (more x) (p.hung x)
  labels : ∀ x ∈ own.ids, d.label? x = some (p.label x)
  values : i.values.get? = p.value

variable {d₀ d : Document} {as : List (String × Accessor Instance)} {own : Shape}
  {more : NodeId → List Shape} {i : Instance} {p : Picture} {name : String} {v : Json} {build : Build}
  {grow : Blueprint → Json → Option Tree}

theorem get?_withValue (i : Instance) (name : String) (v : Json) :
    (i.withValue name v).values.get? = Function.update i.values.get? name (some v) := by
  funext n
  by_cases hn : n = name
  · rw [hn, Function.update_self]
    exact Table.get?_put_self _ _ _
  · rw [Function.update_of_ne hn]
    exact Table.get?_put_of_ne _ _ hn

theorem Layout.get?_eq (h : i.Layout d₀ d as own more) {ac : Accessor Instance}
    (hget : i.accessors.get? name = some ac) :
    Table.get? ⟨as⟩ name = some ac.emptied := by
  rw [← h.accessors, Table.get?_map, hget, Option.map_some]

theorem Layout.get?_eq_none (h : i.Layout d₀ d as own more) (hget : i.accessors.get? name = none) :
    Table.get? ⟨as⟩ name = none := by
  rw [← h.accessors, Table.get?_map, hget, Option.map_none]

theorem Layout.pictureOf (h : i.Layout d₀ d as own fun _ => []) :
    PictureOf d₀ as own d i ⟨d.labelAt, fun _ => [], i.values.get?⟩ := by
  refine ⟨⟨_, h, fun _ _ => .nil⟩, fun x hx => ?_, rfl⟩
  obtain ⟨n, hn⟩ := h.grown.head_holds.live x (Shape.mem_ids_extendBy.mpr (.inl hx))
  show d.label? x = some (d.labelAt x)
  rw [labelAt, label?_of_node? hn, Option.getD_some]

namespace PictureOf

theorem receive (h : PictureOf d₀ as own d i p) (k : Hook) : PictureOf d₀ as own d (i.receive k) p := by
  obtain ⟨⟨more, hlayout, hhung⟩, hlabels, hvalues⟩ := h
  exact ⟨⟨more, hlayout.receive k, hhung⟩, hlabels, hvalues⟩

theorem withValue (h : PictureOf d₀ as own d i p) (name : String) (v : Json) :
    PictureOf d₀ as own d (i.withValue name v) (p.withValue name v) := by
  obtain ⟨⟨more, hlayout, hhung⟩, hlabels, hvalues⟩ := h
  refine ⟨⟨more, hlayout.withValue name v, hhung⟩, hlabels, ?_⟩
  rw [get?_withValue, hvalues]
  rfl

theorem keep (h : PictureOf d₀ as own d i p) {d' : Document} (hd : Grown d d' []) :
    PictureOf d₀ as own d' i p := by
  obtain ⟨⟨more, hlayout, hhung⟩, hlabels, hvalues⟩ := h
  have hsame : ∀ x, d'.label? x = d.label? x := fun x => by
    rw [label?, label?, hd.frame x (by simp)]
  refine ⟨⟨more, hlayout.keep hd, fun x hx => (hhung x hx).imp fun t e hte => ?_⟩, ?_, hvalues⟩
  · exact ⟨(treeAt_congr fun y _ => hsame y).trans hte.1, hte.2⟩
  · intro x hx
    rw [hsame]
    exact hlabels x hx

theorem write (h : PictureOf d₀ as own d i p) {ls : List BoundLocation}
    (hget : i.accessors.get? name = some (.bound ls)) :
    PictureOf d₀ as own (writeLocations d name i.values ls) i (p.write name ls) := by
  obtain ⟨⟨more, hlayout, hhung⟩, hlabels, hvalues⟩ := h
  have howners := hlayout.owners _ _ (hlayout.mem_of_get? hget)
  have hall : ∀ x l, Label.inscribeAll name i.values (ls.filter (·.place.owner = x)) l =
      l.inscribed (BoundLocation.writesAt x (fun r => r.expression.textOf name p.value) ls) := by
    intro x l
    rw [Label.inscribeAll, Label.inscribed, BoundLocation.writesAt, List.foldl_map, ← hvalues]
    simp only [Expression.evaluate_eq_textOf]
  refine ⟨⟨more, hlayout.write hget _, fun x hx => ?_⟩, fun x hx => ?_, hvalues⟩
  · have hmem := (List.forall₂_and_left _ _).mpr ⟨fun t (ht : t ∈ more x) => ht, hhung x hx⟩
    refine hmem.imp ?_
    rintro t e ⟨ht, htree, hchild⟩
    refine ⟨?_, hchild⟩
    rw [← htree]
    refine treeAt_congr fun y hy => ?_
    have hnone : ls.filter (·.place.owner = y) = [] := by
      rw [List.filter_eq_nil_iff]
      intro r hr
      rw [decide_eq_true_eq]
      rintro rfl
      exact hlayout.not_mem_own hx ht _ hy (howners r hr)
    rw [label?_writeLocations, hnone]
    cases d.label? y <;> rfl
  · rw [label?_writeLocations, hlabels x hx, Option.map_some, hall]
    rfl

section Regeneration

variable {a : NodeId} {view : Blueprint} {former batch : List Instance} {ts : List Shape}
  {d' : Document}

theorem stays_iff (hs : i.Layout d₀ d as own more)
    (hget : i.accessors.get? name = some (.iterating a view former)) {t : Shape} {e : String × Tree}
    (hte : Hangs d i t e) :
    (!(former.map Instance.root).contains t.id) = true ↔ decide (e.1 ≠ name) = true := by
  obtain ⟨n, tree⟩ := e
  obtain ⟨-, c, hc, hroot⟩ := hte
  rw [Bool.not_eq_true', ← Bool.not_eq_true, List.contains_iff_mem, decide_eq_true_eq, not_iff_not]
  constructor
  · intro hmem
    obtain ⟨c', hc', hroot'⟩ := List.mem_map.mp hmem
    by_contra hn
    obtain ⟨b, w, cs, hget', rfl⟩ := exists_get?_of_mem_children hc
    exact hs.distinct _ _ _ _ _ _ _ _ hget' hget hn c hc c' hc' (hroot.trans hroot'.symm)
  · rintro rfl
    rw [children_of_get? hget] at hc
    exact hroot ▸ List.mem_map_of_mem hc

theorem hangs_of_stays (hs : i.Layout d₀ d as own more)
    (hget : i.accessors.get? name = some (.iterating a view former))
    (hids : ts.map Shape.id = batch.map Instance.root) (hts : Grown d d' ts) {x : NodeId}
    (hx : x ∈ own.ids) {t : Shape}
    (ht : t ∈ (more x).filter fun t => !(former.map Instance.root).contains t.id)
    {e : String × Tree} (hte : Hangs d i t e) :
    Hangs (appendRoots (removeRoots d' former) a batch)
      (i.withAccessor name (.iterating a view batch)) t e := by
  have hn := (stays_iff hs hget hte).mp (List.mem_filter.mp ht).2
  obtain ⟨htree, c, hc, hroot⟩ := hte
  refine ⟨?_, c, ?_, hroot⟩
  · rw [← htree]
    refine treeAt_congr fun y hy => ?_
    have hkept : y ∈ (own.extendBy fun x =>
        (more x).filter fun t => !(former.map Instance.root).contains t.id).ids :=
      Shape.mem_ids_extendBy.mpr (.inr ⟨x, hx, List.mem_flatMap.mpr ⟨t, ht, hy⟩⟩)
    have hlive : y ∈ (own.extendBy more).ids := Shape.mem_ids_extendBy.mpr
      (.inr ⟨x, hx, List.mem_flatMap.mpr ⟨t, List.mem_of_mem_filter ht, hy⟩⟩)
    obtain ⟨n, hn⟩ := hs.grown.head_holds.live y hlive
    rw [(hs.grown_regenerate hget hids hts).2 y (.inl hkept), label?, label?, hts.keeps hn]
  · rw [children_eq, withAccessor, Table.get?_put_of_ne _ _ (by simpa using hn), ← children_eq]
    exact hc

theorem hangs_of_new (hs : i.Layout d₀ d as own more)
    (hget : i.accessors.get? name = some (.iterating a view former))
    (hids : ts.map Shape.id = batch.map Instance.root) (hts : Grown d d' ts) {t : Shape}
    (ht : t ∈ ts) :
    Hangs (appendRoots (removeRoots d' former) a batch)
      (i.withAccessor name (.iterating a view batch)) t (name, d'.treeAt t) := by
  refine ⟨treeAt_congr fun y hy => ?_, ?_⟩
  · refine (hs.grown_regenerate hget hids hts).2 y (.inr fun hmem => ?_)
    obtain ⟨n, hn⟩ := hs.grown.head_holds.live y hmem
    exact hts.not_mem_of_live hn (List.mem_flatMap.mpr ⟨t, ht, hy⟩)
  · have hroot : t.id ∈ batch.map Instance.root := hids ▸ List.mem_map_of_mem ht
    obtain ⟨c, hc, hid⟩ := List.mem_map.mp hroot
    refine ⟨c, ?_, hid⟩
    rw [children_of_get? (Table.get?_put_self _ _ _)]
    exact hc

theorem hangs_regenerate (hs : i.Layout d₀ d as own more)
    (hhung : ∀ x ∈ own.ids, List.Forall₂ (Hangs d i) (more x) (p.hung x))
    (hget : i.accessors.get? name = some (.iterating a view former))
    (hids : ts.map Shape.id = batch.map Instance.root) (hts : Grown d d' ts) :
    ∀ x ∈ own.ids, List.Forall₂
      (Hangs (appendRoots (removeRoots d' former) a batch)
        (i.withAccessor name (.iterating a view batch)))
      (((more x).filter fun t => !(former.map Instance.root).contains t.id) ++ if x = a then ts else [])
      ((p.rehang name a (ts.map d'.treeAt)).hung x) := by
  intro x hx
  refine List.rel_append ?_ ?_
  · have hstay := List.rel_filter (fun t e hte => stays_iff hs hget hte) (hhung x hx)
    exact ((List.forall₂_and_left _ _).mpr ⟨fun _ ht => ht, hstay⟩).imp fun t e ⟨ht, hte⟩ =>
      hangs_of_stays hs hget hids hts hx ht hte
  · by_cases hxa : x = a
    · rw [if_pos hxa, if_pos hxa, List.map_map, List.forall₂_map_right_iff, List.forall₂_same]
      exact fun t ht => hangs_of_new hs hget hids hts ht
    · rw [if_neg hxa, if_neg hxa]
      exact .nil

theorem regenerate (h : PictureOf d₀ as own d i p)
    (hget : i.accessors.get? name = some (.iterating a view former))
    (hids : ts.map Shape.id = batch.map Instance.root) (hts : Grown d d' ts) :
    PictureOf d₀ as own (appendRoots (removeRoots d' former) a batch)
      (i.withAccessor name (.iterating a view batch)) (p.rehang name a (ts.map d'.treeAt)) := by
  obtain ⟨⟨more, hs, hhung⟩, hlabels, hvalues⟩ := h
  refine ⟨⟨_, hs.regenerate hget hids hts, hangs_regenerate hs hhung hget hids hts⟩, fun x hx => ?_,
    hvalues⟩
  have hown : x ∈ (own.extendBy more).ids := Shape.mem_ids_extendBy.mpr (.inl hx)
  obtain ⟨n, hn⟩ := hs.grown.head_holds.live x hown
  rw [(hs.grown_regenerate hget hids hts).2 x (.inl (Shape.mem_ids_extendBy.mpr (.inl hx))),
    label?, hts.keeps hn]
  exact hlabels x hx

end Regeneration

/-- An assignment changes the picture, and fails just if an item of a region has no tree. -/
theorem assign {s : Stage} (h : PictureOf d₀ as own s.document i p)
    (hb : ∀ n a view, (n, .iterating a view []) ∈ as → build.Grows view (grow view)) (name : String)
    (v : Json) :
    PictureOf d₀ as own (assignWith build s i name v).stage.document (assignWith build s i name v).self
        ((changeOf grow as name v).apply p) ∧
      (assignWith build s i name v).error.isSome = fails grow as name v := by
  obtain ⟨more, hs, -⟩ := h.layout
  have hgrows : ∀ a view cs, i.accessors.get? name = some (.iterating a view cs) →
      build.Grows view (grow view) := fun a view cs get => hb _ _ _ (hs.mem_of_get? get)
  have ha : Assigned build (fun view item t => grow view item = some t) s i name v
      (assignWith build s i name v) :=
    assignWith_assigned hs.grown.tidy fun a view cs get => (hgrows a view cs get).addsTree
  generalize assignWith build s i name v = o at ha
  cases ha with
  | written get =>
    rw [changeOf, fails, hs.get?_eq get]
    refine ⟨?_, rfl⟩
    exact ((h.withValue name v).write get).receive _
  | @regenerated a view former batch items s' d' ts get value ids grown trees document =>
    subst value
    have hall : items.mapM (grow view) = some (ts.map d'.treeAt) := by
      rw [mapM_eq_some_iff, List.forall₂_map_right_iff]
      exact trees
    have hnew := (h.regenerate get ids grown).withValue name (.array items)
    rw [← document] at hnew
    rw [changeOf, fails, hs.get?_eq get, Accessor.emptied]
    dsimp only
    rw [hall]
    exact ⟨hnew.receive _, rfl⟩
  | @refused a view former s' e get reason grown =>
    rw [changeOf, fails, hs.get?_eq get, Accessor.emptied]
    cases reason with
    | noArray kind =>
      cases v <;> first | exact ⟨h.keep grown, rfl⟩ | exact absurd rfl (kind _)
    | failed value mem tidy failure =>
      subst value
      dsimp only
      rw [mapM_eq_none_of_mem mem ((hgrows _ _ _ get).fails tidy failure)]
      exact ⟨h.keep grown, rfl⟩
  | kept get =>
    rw [changeOf, fails, hs.get?_eq_none get]
    refine ⟨?_, rfl⟩
    have hsame : Change.apply p (.inscribe name v []) = p.withValue name v := rfl
    rw [hsame]
    exact h.withValue name v

theorem assignAll (hb : ∀ n a view, (n, .iterating a view []) ∈ as → build.Grows view (grow view))
    (values : List (String × Json)) {s : Stage} (h : PictureOf d₀ as own s.document i p) :
    PictureOf d₀ as own (assignAllWith build s i values).stage.document
      (assignAllWith build s i values).self (Change.applyAll p (changesOf grow as values)) := by
  induction values generalizing s i p with
  | nil => exact h
  | cons e values ih =>
    obtain ⟨hone, herror⟩ := h.assign hb e.1 e.2
    rw [assignAllWith, changesOf, List.takeWhile_cons]
    generalize assignWith build s i e.1 e.2 = o at hone herror
    obtain ⟨s', i', error⟩ := o
    cases error with
    | none =>
      rw [← herror]
      exact ih hone
    | some error =>
      rw [← herror]
      -- an assignment that fails changes nothing
      have hpass : changeOf grow as e.1 e.2 = .pass := by
        rw [changeOf]
        rw [fails] at herror
        split at herror
        · rename_i hget
          rw [hget]
          dsimp only
          split at herror
          · rw [Option.isNone_iff_eq_none.mp herror.symm]
            rfl
          · cases herror
        · cases herror
      rw [hpass] at hone
      exact hone

end PictureOf

end Instance

end LiveMarkup
