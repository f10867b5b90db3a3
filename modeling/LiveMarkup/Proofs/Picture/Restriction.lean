import LiveMarkup.Proofs.Store.Replacing
import LiveMarkup.Proofs.Instance.Reading
import LiveMarkup.Proofs.Picture.Repetition
import LiveMarkup.Proofs.Picture.Run

namespace LiveMarkup

open CompileContext Document Site

structure Instance.AgreeOn (names : List String) (i j : Instance) : Prop where
  values : j.values = i.values
  accessors : ∀ n ∈ names, j.accessors.get? n = i.accessors.get? n

/-- The assignments have left the same in the document, and instances that agree. -/
structure Outcome.Agrees (names : List String) (o o' : Outcome) : Prop where
  stage : o'.stage = o.stage
  error : o'.error = o.error
  self : o.self.AgreeOn names o'.self

namespace Instance

variable {i j : Instance} {names : List String} {name : String}

namespace AgreeOn

theorem withValue (h : AgreeOn names i j) (name : String) (v : Json) :
    AgreeOn names (i.withValue name v) (j.withValue name v) :=
  ⟨by rw [Instance.withValue, Instance.withValue, h.values], h.accessors⟩

theorem withAccessor (h : AgreeOn names i j) (name : String) (a : Accessor Instance) :
    AgreeOn names (i.withAccessor name a) (j.withAccessor name a) := by
  refine ⟨h.values, fun n hn => ?_⟩
  by_cases hname : n = name
  · rw [hname, Instance.withAccessor, Instance.withAccessor, Table.get?_put_self, Table.get?_put_self]
  · rw [Instance.withAccessor, Instance.withAccessor, Table.get?_put_of_ne _ _ hname,
      Table.get?_put_of_ne _ _ hname, h.accessors n hn]

theorem notify (h : AgreeOn names i j) (name : String) : AgreeOn names (i.notify name) (j.notify name) :=
  ⟨h.values, h.accessors⟩

theorem assign (h : AgreeOn names i j) (hn : name ∈ names) (build : Build) (s : Stage) (v : Json) :
    Outcome.Agrees names (assignWith build s i name v) (assignWith build s j name v) := by
  unfold assignWith
  rw [h.accessors name hn]
  split
  · unfold assignBound
    refine ⟨?_, rfl, (h.withValue name v).notify name⟩
    dsimp only
    rw [(h.withValue name v).values]
  · split
    · unfold assignItems
      split
      · exact ⟨rfl, rfl, h⟩
      · exact ⟨rfl, rfl, ((h.withAccessor name _).withValue name _).notify name⟩
    · exact ⟨rfl, rfl, h⟩
  · exact ⟨rfl, rfl, h.withValue name v⟩

theorem assignAll (h : AgreeOn names i j) (build : Build) (s : Stage) {values : List (String × Json)}
    (hn : values.map (·.1) ⊆ names) :
    Outcome.Agrees names (assignAllWith build s i values) (assignAllWith build s j values) := by
  induction values generalizing s i j with
  | nil => exact ⟨rfl, rfl, h⟩
  | cons e values ih =>
    obtain ⟨name, v⟩ := e
    have hone := h.assign (hn List.mem_cons_self) build s v
    unfold assignAllWith
    generalize assignWith build s i name v = o at hone ⊢
    generalize assignWith build s j name v = o' at hone ⊢
    obtain ⟨s₁, i₁, error⟩ := o
    obtain ⟨s₂, j₁, error'⟩ := o'
    obtain ⟨rfl, rfl, hself⟩ := hone
    cases error' with
    | none => exact ih hself s₂ fun n hmem => hn (List.mem_cons_of_mem _ hmem)
    | some e => exact ⟨rfl, rfl, hself⟩

end AgreeOn

theorem layout_of_handles {d₀ d : Document} {own : Shape} {as : List (String × Accessor Instance)}
    (hgrown : Grown d₀ d [own]) (hroot : i.root = own.id) (haccessors : i.accessors = ⟨as⟩)
    (childless : ∀ e ∈ as, e.2.children = []) (handles : ∀ e ∈ as, ∀ x ∈ e.2.handles, x ∈ own.ids) :
    i.Layout d₀ d as own fun _ => [] := by
  refine layout_of_grown hgrown hroot haccessors (fun n ls hmem r hr => ?_) fun n a v cs hmem => ?_
  · exact handles _ hmem _ (List.mem_map_of_mem hr)
  · exact ⟨handles _ hmem _ List.mem_cons_self, childless _ hmem⟩

end Instance

/-! ### Copies and their accessors -/

/-- The accessors for a blueprint that are bound to a copy of its skeleton. -/
structure Blueprint.Bound (b : Blueprint) (d : Document) (c : Shape)
    (as : List (String × Accessor Instance)) : Prop where
  resolves : List.Forall₂ (Exposure.Resolves d c.id) b.exposures as
  holds : d.Holds none c
  ids : c.ids.Nodup
  wired : Instance.Wired as
  names : (as.map (·.1)).Nodup
  closed : ∀ n ls r m, (n, .bound ls) ∈ as → r ∈ ls → m ∈ r.expression.reads n → m ∈ as.map (·.1)

namespace Blueprint

variable {b : Blueprint} {d d' : Document} {c : Shape} {as : List (String × Accessor Instance)}

theorem IsCompiled.exists_bound (h : b.IsCompiled) (hc : d.Copies d' c b.skeleton) :
    ∃ as, b.Bound d' c as := by
  obtain ⟨ctx, l, ps, hv⟩ := h.exists_isView
  obtain ⟨ss, -, rfl, hexhibits⟩ := hv.exists_exhibits hc
  exact ⟨_, Instance.exposures_resolve hv hexhibits, hc.holds, hc.nodup,
    Instance.wired_accessorsAt ctx b hexhibits, Instance.nodup_names_accessorsAt hv c.id,
    fun _ _ _ _ hn hr hm => Instance.closed_accessorsAt hv hexhibits hn hr hm⟩

namespace Bound

variable (h : b.Bound d c as)
include h

theorem map_fst : as.map (·.1) = b.exposures.map Exposure.name := Exposure.Resolves.map_fst h.resolves

theorem exists_exposure {e : String × Accessor Instance} (he : e ∈ as) :
    ∃ x ∈ b.exposures, Exposure.Resolves d c.id x e := by
  obtain ⟨n, hlt, rfl⟩ := List.mem_iff_getElem.mp he
  have hlength := h.resolves.length_eq
  exact ⟨b.exposures[n], List.getElem_mem _, h.resolves.get (hlength ▸ hlt) hlt⟩

theorem childless : ∀ e ∈ as, e.2.children = [] := by
  intro e he
  obtain ⟨x, -, hx⟩ := h.exists_exposure he
  exact hx.childless

theorem handles : ∀ e ∈ as, ∀ x ∈ e.2.handles, x ∈ c.ids := by
  intro e he
  obtain ⟨x, -, hx⟩ := h.exists_exposure he
  exact hx.mem_ids h.holds h.ids

theorem isCompiled (hb : b.IsCompiled) :
    ∀ n a view, (n, .iterating a view []) ∈ as → view.IsCompiled := by
  intro n a view hmem
  obtain ⟨x, hx, hresolves⟩ := h.exists_exposure hmem
  obtain ⟨name, g, rfl, rfl⟩ := hresolves.exists_region rfl
  exact hb.region (Blueprint.mem_regions_of_mem_exposures hx)

theorem bindExposures_eq {s : Stage} {i : Instance}
    (same : ∀ path, s.document.decode? c.id path = d.decode? c.id path) (names : i.accessors.names.Nodup)
    (new : ∀ n ∈ b.exposures.map Exposure.name, n ∉ i.accessors.names) :
    (i.bindExposures s c.id b.exposures).1 = s ∧
      (i.bindExposures s c.id b.exposures).2.1 =
        { i with accessors := ⟨i.accessors.entries ++ as⟩ } := by
  have hresolves : List.Forall₂ (Exposure.Resolves s.document c.id) b.exposures as :=
    h.resolves.imp fun _ _ hx => hx.congr same
  have hdisjoint : (i.accessors.names ++ as.map (·.1)).Nodup := by
    rw [List.nodup_append]
    refine ⟨names, h.names, fun n hn m hm => ?_⟩
    rintro rfl
    exact new n (h.map_fst ▸ hm) hn
  rw [Instance.bindExposures_eq s hresolves hdisjoint]
  exact ⟨rfl, rfl⟩

end Bound

end Blueprint

/-! ### The same changes of two pictures -/

namespace Change

variable {p q : Picture} {cs : List Change} {s : Shape}

/-- Changes make the same tree of two pictures, unless they read values that differ in the end. -/
theorem treeOf_applyAll_congr (labels : ∀ x ∈ s.ids, p.label x = q.label x)
    (hung : ∀ x ∈ s.ids, p.hung x = q.hung x) (differ : cs.Pairwise Differ)
    (hp : Settled (applyAll p cs).value p cs) (hq : Settled (applyAll q cs).value q cs)
    (reads : ∀ n v ls, .inscribe n v ls ∈ cs → ∀ r ∈ ls, ∀ m ∈ r.expression.reads n,
      (applyAll p cs).value m = (applyAll q cs).value m) :
    (applyAll p cs).treeOf s = (applyAll q cs).treeOf s := by
  refine Picture.treeOf_congr (fun x hx => ?_) fun x hx => ?_
  · have hwrites : cs.flatMap (writesAt x (applyAll p cs).value) =
        cs.flatMap (writesAt x (applyAll q cs).value) := by
      refine List.flatMap_congr fun c hc => ?_
      cases c with
      | inscribe n v ls =>
        refine List.map_congr_left fun r hr => ?_
        have htext := Expression.textOf_congr (reads n v ls hc r (List.mem_of_mem_filter hr))
        exact congrArg (Prod.mk r.place) htext
      | _ => rfl
    rw [hp.label_applyAll, hq.label_applyAll, labels x hx, hwrites]
  · rw [hung_applyAll p differ, hung_applyAll q differ, hung x hx]

def Misses (x : NodeId) (c : Change) : Prop := (∀ value, c.writesAt x value = []) ∧ c.hungAt x = []

theorem label_applyAll_of_misses {x : NodeId} (h : ∀ c ∈ cs, c.Misses x) :
    (applyAll p cs).label x = p.label x := by
  induction cs generalizing p with
  | nil => rfl
  | cons c cs ih =>
    refine (ih fun c' hc' => h c' (List.mem_cons_of_mem _ hc')).trans ?_
    rw [label_apply, (h c List.mem_cons_self).1]
    rfl

theorem hung_applyAll_of_misses {x : NodeId} (h : ∀ c ∈ cs, c.Misses x) (hung : p.hung x = []) :
    (applyAll p cs).hung x = [] := by
  induction cs generalizing p with
  | nil => exact hung
  | cons c cs ih =>
    refine ih (fun c' hc' => h c' (List.mem_cons_of_mem _ hc')) ?_
    rw [hung_apply, hung, (h c List.mem_cons_self).2]
    rfl

end Change

namespace Instance

variable {grow : Blueprint → Json → Option Tree} {as : List (String × Accessor Instance)}
  {values : List (String × Json)} {n : String} {v : Json} {x : NodeId}

theorem changeOf_of_bound {ls : List BoundLocation} (hn : (as.map (·.1)).Nodup)
    (h : (n, .bound ls) ∈ as) (v : Json) : changeOf grow as n v = .inscribe n v ls := by
  have hget := (Table.get?_eq_some_iff (t := ⟨as⟩) hn).mpr h
  rw [changeOf, hget]

theorem exists_bound_of_inscribe {m : String} {w : Json} {ls : List BoundLocation}
    {r : BoundLocation} (hn : (as.map (·.1)).Nodup) (h : changeOf grow as n v = .inscribe m w ls)
    (hr : r ∈ ls) : m = n ∧ (n, .bound ls) ∈ as := by
  unfold changeOf at h
  split at h
  · obtain ⟨-, -, rfl⟩ := Change.inscribe.inj h
    cases hr
  · rename_i hget
    obtain ⟨rfl, -, rfl⟩ := Change.inscribe.inj h
    exact ⟨rfl, (Table.get?_eq_some_iff hn).mp hget⟩
  · rename_i a view cs hget
    split at h
    · rename_i items
      cases hall : items.mapM (grow view) <;> rw [hall] at h <;> cases h
    · cases h

theorem taking?_changeOf {e : String × Json} (h : (changeOf grow as n v).taking? = some e) :
    e = (n, v) := by
  unfold changeOf at h
  split at h
  · exact (Option.some.inj h).symm
  · exact (Option.some.inj h).symm
  · rename_i a view cs hget
    split at h
    · rename_i items
      cases hall : items.mapM (grow view) with
      | none =>
        rw [hall] at h
        cases h
      | some ts =>
        rw [hall] at h
        exact (Option.some.inj h).symm
    · cases h

theorem differ_changes (hn : (values.map (·.1)).Nodup) :
    (values.map fun e => changeOf grow as e.1 e.2).Pairwise Change.Differ := by
  rw [List.pairwise_map]
  refine (List.pairwise_map.mp hn).imp fun {e e'} hne n v w h h' => hne ?_
  have hfirst := congrArg Prod.fst (taking?_changeOf h)
  have hsecond := congrArg Prod.fst (taking?_changeOf h')
  exact hfirst.symm.trans hsecond

theorem misses_changeOf (hn : (as.map (·.1)).Nodup) (hx : ∀ e ∈ as, x ∉ e.2.handles) :
    (changeOf grow as n v).Misses x := by
  unfold changeOf
  split
  · exact ⟨fun _ => rfl, rfl⟩
  · rename_i ls hget
    have hmem := (Table.get?_eq_some_iff hn).mp hget
    refine ⟨fun value => List.map_eq_nil_iff.mpr (List.filter_eq_nil_iff.mpr fun r hr => ?_), rfl⟩
    rw [decide_eq_true_eq]
    rintro rfl
    exact hx _ hmem (List.mem_map_of_mem hr)
  · rename_i a view cs hget
    have hmem := (Table.get?_eq_some_iff hn).mp hget
    have hne : x ≠ a := fun e => hx _ hmem (by rw [e]; exact List.mem_cons_self)
    split
    · rename_i items
      cases items.mapM (grow view) with
      | none => exact ⟨fun _ => rfl, rfl⟩
      | some ts => exact ⟨fun _ => rfl, if_neg hne⟩
    · exact ⟨fun _ => rfl, rfl⟩

variable {d₀ : Document} {own : Shape} {p : Picture} {build : Build} {s : Stage} {i : Instance}

theorem PictureOf.error_assignAll (values : List (String × Json))
    (hb : ∀ n a view, (n, .iterating a view []) ∈ as → build.Grows view (grow view))
    (h : PictureOf d₀ as own s.document i p) :
    (assignAllWith build s i values).error.isSome = values.any fun e => fails grow as e.1 e.2 := by
  induction values generalizing s i p with
  | nil => rfl
  | cons e values ih =>
    obtain ⟨hone, herror⟩ := h.assign hb e.1 e.2
    rw [assignAllWith, List.any_cons, ← herror]
    generalize assignWith build s i e.1 e.2 = o at hone
    obtain ⟨s', i', _ | error⟩ := o
    · exact ih hone
    · rfl

theorem changesOf_of_any (h : (values.any fun e => fails grow as e.1 e.2) = false) :
    changesOf grow as values = values.map fun e => changeOf grow as e.1 e.2 := by
  rw [changesOf, List.takeWhile_eq_self_iff.mpr fun e he => ?_]
  rw [List.any_eq_false] at h
  simpa using h e he

theorem AgreeOn.pictureOf_assignAll {names : List String} {j : Instance} (h : AgreeOn names i j)
    (hb : ∀ n a view, (n, .iterating a view []) ∈ as → build.Grows view (grow view))
    (hp : PictureOf d₀ as own s.document j p) (hn : values.map (·.1) ⊆ names)
    (success : (assignAllWith build s i values).error = none) :
    (∃ k, PictureOf d₀ as own (assignAllWith build s i values).stage.document k
        (Change.applyAll p (values.map fun e => changeOf grow as e.1 e.2))) ∧
      ∀ e ∈ values, fails grow as e.1 e.2 = false := by
  have hall := h.assignAll build s hn
  have hlast := hp.assignAll hb values
  have hany := hp.error_assignAll values hb
  rw [hall.error, success] at hany
  rw [hall.stage, changesOf_of_any hany.symm] at hlast
  refine ⟨⟨_, hlast⟩, fun e he => ?_⟩
  simpa using List.any_eq_false.mp hany.symm e he

end Instance

end LiveMarkup
