import LiveMarkup.Proofs.Store.Refusing
import LiveMarkup.Proofs.Picture.Configuring

namespace LiveMarkup

open Document

namespace Instance

variable {s s' : Stage} {i j : Instance} {data v : Json} {name n : String} {names : List String}
  {values : List (String × Json)}

/-- The property can take the value. A bound one takes any value, and an iterating one an array, if an
instance can be built for each of its items. -/
def Accepts (s : Stage) (i : Instance) (name : String) (v : Json) : Prop :=
  ∀ a view former, i.accessors.get? name = some (.iterating a view former) →
    ∃ items, v = .array items ∧
      ∀ item ∈ items, ∃ s' c, build i.registry s view item = (s', .ok c)

theorem accepts_iff : i.Accepts s name v ↔ ¬ i.Rejects name v ∧ i.failure? name v = none := by
  constructor
  · intro h
    have hnot : ¬ i.Rejects name v := by
      rintro ⟨iterates, noArray⟩
      obtain ⟨a, ha⟩ := Option.ne_none_iff_exists'.mp iterates
      obtain ⟨view, former, hget⟩ := anchor?_eq_some.mp ha
      obtain ⟨items, rfl, -⟩ := h a view former hget
      exact noArray items rfl
    refine ⟨hnot, ?_⟩
    unfold failure?
    split
    · rename_i a view former item items hget
      obtain ⟨items', hitems, hbuilt⟩ := h a view former hget
      obtain rfl := Json.array.inj hitems
      obtain ⟨s', c, hc⟩ := hbuilt item List.mem_cons_self
      split
      · rename_i e hcreate
        rw [build_of_error hcreate] at hc
        cases hc
      · rfl
    · rfl
  · rintro ⟨hnot, hfailure⟩ a view former hget
    cases v with
    | array items =>
      refine ⟨items, rfl, fun item hitem => ?_⟩
      cases hcreate : i.registry.create view.targetClass with
      | ok c => exact exists_build_of_ok hcreate s item
      | error e =>
        obtain ⟨first, rest, rfl⟩ := List.exists_cons_of_ne_nil (List.ne_nil_of_mem hitem)
        simp [failure?, hget, hcreate] at hfailure
    | _ => exact absurd (Rejects.of_get? hget (by simp)) hnot

/-- What a property can take does not depend on what the others have taken. -/
theorem Confined.accepts_iff (h : Confined values i j) :
    j.Accepts s' name v ↔ i.Accepts s name v := by
  rw [Instance.accepts_iff, Instance.accepts_iff, h.failure?]
  have hrejects : j.Rejects name v ↔ i.Rejects name v := by
    constructor <;> rintro ⟨iterates, noArray⟩ <;> refine ⟨?_, noArray⟩
    · rwa [← h.anchor?]
    · rwa [h.anchor?]
  rw [hrejects]

theorem assign_of_not_accepts (h : ¬ i.Accepts s name v) :
    (i.assign s name v).self = i ∧ (i.assign s name v).stage.document = s.document := by
  rw [accepts_iff, not_and_or, not_not] at h
  rcases h with hrejects | hfailure
  · rw [assign, assignWith_of_rejects hrejects]
    exact ⟨rfl, rfl⟩
  · obtain ⟨e, he⟩ := Option.ne_none_iff_exists'.mp hfailure
    rw [assign_of_failure he]
    exact ⟨rfl, rfl⟩

theorem get?_assign_of_accepts (h : i.Accepts s name v) (s' : Stage) :
    (i.assign s' name v).error = none ∧ (i.assign s' name v).self.get? name = some v := by
  have herror := (error_assign s' i name v).trans (accepts_iff.mp h).2
  refine ⟨herror, ?_⟩
  rw [assign, assignWith] at herror ⊢
  rcases hget : i.accessors.get? name with _ | ⟨ls⟩ | ⟨a, view, former⟩
  · exact Table.get?_put_self _ _ _
  · exact Table.get?_put_self _ _ _
  · obtain ⟨items, rfl, -⟩ := h a view former hget
    rw [hget] at herror
    dsimp only at herror ⊢
    rw [assignItems] at herror ⊢
    rcases hall : buildAll (Instance.build i.registry) view s' items [] with ⟨t, e | batch⟩
    · rw [hall] at herror
      cases herror
    · exact Table.get?_put_self _ _ _

theorem takeAllWith_append (build : Build) (data : Json) (s : Stage) (i : Instance)
    (before after : List String) : takeAllWith build data s i (before ++ after) =
      takeAllWith build data (takeAllWith build data s i before).1
        (takeAllWith build data s i before).2 after := by
  induction before generalizing s i with
  | nil => rfl
  | cons name before ih =>
    rw [List.cons_append, takeAllWith, takeAllWith]
    cases data.resolve? name with
    | none => exact ih s i
    | some v =>
      dsimp only
      rcases assignWith build s i name v with ⟨s', i', _ | e⟩
      · exact ih s' i'
      · exact ih _ i'

theorem confined_takeAll (data : Json) (names : List String)
    (hn : n ∈ names → ∀ v, data.resolve? n = some v → ¬ i.Accepts s n v) :
    Confined ((resolved data names).filter (·.1 ≠ n)) i
      (takeAllWith (Instance.build i.registry) data s i names).2 := by
  induction names generalizing s i with
  | nil => exact .refl i
  | cons name names ih =>
    cases hv : data.resolve? name with
    | none =>
      rw [takeAllWith_of_none hv, resolved_of_none hv]
      exact ih fun hmem => hn (List.mem_cons_of_mem _ hmem)
    | some v =>
      have hconfined := confined_assignWith (Instance.build i.registry) s i name v
      obtain ⟨s', -, hrest⟩ := exists_takeAllWith_of_some hv (Instance.build i.registry) s i names
      have hlater := @ih s' (assignWith (Instance.build i.registry) s i name v).self
        fun hmem w hw => hconfined.accepts_iff.not.mpr (hn (List.mem_cons_of_mem _ hmem) w hw)
      rw [hconfined.registry] at hlater
      rw [hrest, resolved_of_some hv, List.filter_cons]
      by_cases hname : name = n
      · subst hname
        have hself := (assign_of_not_accepts (hn List.mem_cons_self v hv)).1
        rw [assign] at hself
        rw [hself] at hlater ⊢
        simpa using hlater
      · rw [if_pos (by simpa using hname)]
        exact hconfined.trans hlater

end Instance

namespace LockstepAt

variable {S : Setting} {watch : NodeId → NodeId → Prop} {s t : Stage} {g k : Instance} {data v : Json}
  {n : String} {names : List String}

theorem kept_takeAll (admits : ∀ view, S.admits view → view.IsCompiled)
    (h : LockstepAt S watch s.document t.document g k) (data : Json) (names : List String)
    (hn : n ∈ names → ∀ v, data.resolve? n = some v → ¬ g.Accepts s n v) :
    Kept (names.filter (· ≠ n)) s.document g
      (Instance.takeAllWith (Instance.build g.registry) data s g names).1.document
      (Instance.takeAllWith (Instance.build g.registry) data s g names).2 := by
  induction names generalizing s t g k with
  | nil =>
    obtain ⟨_, _, _, hg, renamed, -⟩ := h.exists_state
    exact renamed.left.kept hg
  | cons name names ih =>
    cases hv : data.resolve? name with
    | none =>
      rw [Instance.takeAllWith_of_none hv]
      exact (ih h fun hmem => hn (List.mem_cons_of_mem _ hmem)).mono
        ((List.sublist_cons_self name names).filter _).subset
    | some v =>
      have hone := (h.assign (fun view hview => Instance.build_alike g.registry (admits view hview))
        name v).lockstepAt
      have hconfined := Instance.confined_assignWith (Instance.build g.registry) s g name v
      obtain ⟨s', hdocument, hrest⟩ :=
        Instance.exists_takeAllWith_of_some hv (Instance.build g.registry) s g names
      rw [← hdocument] at hone
      have hlater := ih hone fun hmem w hw =>
        hconfined.accepts_iff.not.mpr (hn (List.mem_cons_of_mem _ hmem) w hw)
      rw [hconfined.registry] at hlater
      rw [hrest, List.filter_cons]
      by_cases hname : name = n
      · subst hname
        obtain ⟨hself, hsame⟩ := Instance.assign_of_not_accepts (hn List.mem_cons_self v hv)
        rw [Instance.assign] at hself hsame
        rw [hdocument, hsame, hself] at hlater
        rw [hself]
        simpa using hlater
      · obtain ⟨_, _, _, hg, renamed, -⟩ := h.exists_state
        have hkept := (renamed.left.taken hg g.registry name v).kept renamed.left hg
        rw [← hdocument] at hkept
        rw [if_pos (by simpa using hname)]
        exact hkept.trans hlater

/-- A property that can take its value from the data has it in the end, whatever the others do. -/
theorem takes_takeAll (admits : ∀ view, S.admits view → view.IsCompiled)
    (h : LockstepAt S watch s.document t.document g k) (hnames : names.Nodup) (hn : n ∈ names)
    (hv : data.resolve? n = some v) (accepts : g.Accepts s n v) :
    (Instance.takeAllWith (Instance.build g.registry) data s g names).2.get? n = some v ∧
      ∀ a view former items, g.accessors.get? n = some (.iterating a view former) →
        v = .array items →
        List.Forall₂ (fun item c => Instance.LooksAlone g.registry view item
            (Instance.takeAllWith (Instance.build g.registry) data s g names).1.document c) items
          ((Instance.takeAllWith (Instance.build g.registry) data s g names).2.children n) := by
  obtain ⟨before, after, rfl⟩ := List.append_of_mem hn
  obtain ⟨hbefore, hafter⟩ : n ∉ before ∧ n ∉ after := by
    rw [List.nodup_append, List.nodup_cons] at hnames
    exact ⟨fun hmem => hnames.2.2 n hmem n List.mem_cons_self rfl, hnames.2.1.1⟩
  have halike : ∀ view, S.admits view → (Instance.build g.registry).Alike (Instance.build g.registry)
      view := fun view hview => Instance.build_alike g.registry (admits view hview)
  -- Those before it leave it as it is.
  have hlock := h.takeAll halike data before
  have hfirst := Instance.confined_takeAll (s := s) (i := g) (n := n) data before
    fun hmem => absurd hmem hbefore
  rw [Instance.takeAllWith_append]
  generalize Instance.takeAllWith (Instance.build g.registry) data s g before = r at hlock hfirst
  obtain ⟨s₁, g₁⟩ := r
  have hregistry : g₁.registry = g.registry := hfirst.registry
  have hget : g₁.accessors.get? n = g.accessors.get? n := hfirst.others n (by simp)
  dsimp only at hlock ⊢
  -- It takes its value.
  have hone := hlock.assign halike n v
  have hready : g₁.Accepts s₁ n v := hfirst.accepts_iff.mpr accepts
  obtain ⟨herror, hvalue⟩ := Instance.get?_assign_of_accepts hready s₁
  have hsecond := Instance.confined_assignWith (Instance.build g.registry) s₁ g₁ n v
  obtain ⟨_, _, _, hg, renamed, -⟩ := hlock.exists_state
  have htaken := renamed.left.taken hg g.registry n v
  rw [Instance.assign, hregistry] at herror hvalue
  obtain ⟨s₂, hdocument, hrest⟩ :=
    Instance.exists_takeAllWith_of_some hv (Instance.build g.registry) s₁ g₁ after
  have hlast := hone.lockstepAt
  rw [← hdocument] at hlast
  rw [hrest]
  -- Those after it leave it as it is.
  have hregistry' := hsecond.registry.trans hregistry
  have hthird := Instance.confined_takeAll (s := s₂) (n := n)
    (i := (Instance.assignWith (Instance.build g.registry) s₁ g₁ n v).self) data after
    fun hmem => absurd hmem hafter
  have hkept := hlast.kept_takeAll (n := n) admits data after fun hmem => absurd hmem hafter
  rw [hregistry'] at hthird hkept
  refine ⟨(hthird.get?_of_not_mem (by simp)).trans hvalue, fun a view former items hgot hitems => ?_⟩
  subst hitems
  obtain ⟨hbatch, -⟩ := htaken.batch renamed.left hg (hget.trans hgot) herror
  obtain ⟨hchildren, hretains⟩ := hkept.others n (by simp)
  rw [hchildren]
  rw [hdocument] at hretains
  exact Instance.LooksAlone.retainedAll hbatch hretains

end LockstepAt

namespace Instance

variable {s : Stage} {i : Instance} {data v : Json} {n : String}

/-- The data has a value for the property that it can take. -/
def Takes (s : Stage) (i : Instance) (data : Json) (n : String) (v : Json) : Prop :=
  data.isNull = false ∧ i.hasProperty n = true ∧ data.resolve? n = some v ∧ i.Accepts s n v

/-- What it comes to that an instance takes data. Where some of it is bad the rest is as without it. -/
structure SkipsFailures (s : Stage) (i : Instance) (data : Json) (s' : Stage) (j : Instance) : Prop where
  /-- The component hears of the data once, when all the properties have changed. -/
  heard : ∃ told : List String, j.component = ⟨i.component.kind,
    i.component.received ++ told.map Hook.changed ++ [.configure data]⟩
  once : j.component.configureCount = i.component.configureCount + 1
  /-- Regions stay where they are, with their views. -/
  regions : j.accessors.map Accessor.emptied = i.accessors.map Accessor.emptied
  taken : ∀ n v, i.Takes s data n v → j.get? n = some v ∧
    ∀ a view former items, i.accessors.get? n = some (.iterating a view former) → v = .array items →
      List.Forall₂ (fun item c => LooksAlone i.registry view item s'.document c) items (j.children n)
  kept : ∀ n, (∀ v, ¬ i.Takes s data n v) → j.get? n = i.get? n ∧
    j.accessors.get? n = i.accessors.get? n ∧
    ∀ c ∈ i.children n, c.appearance s'.document = c.appearance s.document
  /-- The instances of each property are below its anchor. -/
  hung : ∀ n a, j.anchor? n = some a → ∀ c ∈ j.children n, c.root ∈ s'.document.children a

theorem configureCount_heard (c : Component) (told : List String) (data : Json) :
    Component.configureCount ⟨c.kind, c.received ++ told.map Hook.changed ++ [.configure data]⟩ =
      c.configureCount + 1 := by
  simp [Component.configureCount, Hook.changed, List.countP_eq_zero]

/-- Whatever led to the instance, and whatever is in the data, each property that can take its value has
it in the end, and every other property is as it was. -/
theorem skipsFailures_configure (h : Store.Reached s.document i) (data : Json) :
    i.SkipsFailures s data (i.configure s data).1 (i.configure s data).2 := by
  obtain ⟨S, watch, e, k, hadmits, hlock⟩ := h.exists_lockstepAt
  have admits : ∀ view, S.admits view → view.IsCompiled := fun view hview => hadmits ▸ hview
  have hlock : LockstepAt S watch s.document (⟨e, []⟩ : Stage).document i k := hlock
  obtain ⟨_, _, _, hg, renamed, -⟩ := hlock.exists_state
  have hlater := hlock.configure (fun view hview => build_alike i.registry (admits view hview)) data
  obtain ⟨_, _, _, hg', renamed', -⟩ := hlater.exists_state
  have hnames := ((renamed.left.embedded _ List.mem_cons_self).descend? hg).1.names
  have hembedded := ((renamed'.left.embedded _ List.mem_cons_self).descend? hg').1
  obtain ⟨j, values, hconfined, hj⟩ := confined_configure s i data
  obtain ⟨told, -, hcomponent⟩ := hconfined.heard
  have hheard : (i.configure s data).2.component = ⟨i.component.kind,
      i.component.received ++ told.map Hook.changed ++ [.configure data]⟩ := by
    rw [hj, receive, hcomponent]
    rfl
  refine ⟨⟨told, hheard⟩, ?_, ?_, fun n v htakes => ?_, fun n hn => ?_, fun n a ha c hc => ?_⟩
  · rw [hheard, configureCount_heard]
  · rw [hj]
    exact hconfined.emptied
  · obtain ⟨hnull, hproperty, hv, haccepts⟩ := htakes
    rw [configure, configureWith, hnull]
    exact hlock.takes_takeAll admits hnames (Table.contains_iff.mp hproperty) hv haccepts
  · rw [configure, configureWith]
    cases hnull : data.isNull with
    | true => exact ⟨rfl, rfl, fun _ _ => rfl⟩
    | false =>
      have hnone : n ∈ i.accessors.names → ∀ v, data.resolve? n = some v → ¬ i.Accepts s n v :=
        fun hmem v hv haccepts => hn v ⟨hnull, Table.contains_iff.mpr hmem, hv, haccepts⟩
      have hsame := confined_takeAll data _ hnone
      have hkept := hlock.kept_takeAll admits data _ hnone
      exact ⟨hsame.get?_of_not_mem (by simp), hsame.others n (by simp),
        fun c hc => ((hkept.others n (by simp)).2 c hc).appearance⟩
  · obtain ⟨view, cs, hget⟩ := anchor?_eq_some.mp ha
    rw [children_of_get? hget] at hc
    exact ((hembedded.placed_of_get? hget).2 c hc).2

end Instance

namespace Store

def unlistedRow : Json := .object [("user", userWithRow)]

/-- There is no class for the rows of a user. The user is taken none the less. -/
theorem skipsFailures_configure_rowsBelowText :
    ∃ b log i, Blueprint.compile .standard rowsBelowText none = (.ok b, log) ∧
      (run .empty (placed cardsOnly (some "Card") none b)).find? "card" [] = some i ∧
      let s : Stage := ⟨(run .empty (placed cardsOnly (some "Card") none b)).document, []⟩
      (∀ v, ¬ i.Takes s unlistedRow "user.rows" v) ∧ i.Takes s unlistedRow "user" userWithRow ∧
        i.SkipsFailures s unlistedRow (i.configure s unlistedRow).1 (i.configure s unlistedRow).2 := by
  obtain ⟨b, log, i, a, view, former, hcompile, hb, found, iterates, hcheck⟩ :=
    exists_of_probe .empty rowsBelowText (placed cardsOnly (some "Card") none) "card" "user.rows"
      (fun _ i _ => i.hasProperty "user" && (i.anchor? "user").isNone &&
        (i.failure? "user.rows" (.array [.natural 1])).isSome) (by decide +kernel)
  rw [Bool.and_eq_true, Bool.and_eq_true, Option.isNone_iff_eq_none, Option.isSome_iff_ne_none] at hcheck
  obtain ⟨⟨hproperty, hbound⟩, hfails⟩ := hcheck
  refine ⟨b, log, i, hcompile, found, ?_, ⟨rfl, hproperty, rfl, fun a view former hget => ?_⟩,
    Instance.skipsFailures_configure (s := ⟨_, []⟩) (reached_placed hb found) unlistedRow⟩
  · rintro v ⟨-, -, hv, haccepts⟩
    obtain rfl : Json.array [.natural 1] = v := Option.some.inj hv
    exact hfails (Instance.accepts_iff.mp haccepts).2
  · rw [Instance.anchor?_eq_some.mpr ⟨view, former, hget⟩] at hbound
    cases hbound

end Store

end LiveMarkup
