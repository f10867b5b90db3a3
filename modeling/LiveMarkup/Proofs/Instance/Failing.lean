import LiveMarkup.Proofs.Instance.Family
import LiveMarkup.Proofs.Template.Rendering

/-!
# Assignments that come to nothing

An assignment concerns its own property only. It fails where instances are to be built of a class that
there is not, and then it leaves everything as it was. So assignments one after another are cut off at
the first one that fails.
-/

namespace LiveMarkup

def Hook.changed (name : String) : Hook :=
  .propertyChange (if name = selfReference then none else some name)

namespace Instance

variable {registry : Registry} {s : Stage} {i j k : Instance} {view : Blueprint} {name : String}
  {v : Json} {values values' : List (String × Json)} {e : EngineError} {c : Component}

/-! ### What assignments concern -/

/-- Between two states of an instance, nothing has happened but that properties were assigned values. -/
structure Confined (values : List (String × Json)) (i j : Instance) : Prop where
  root : j.root = i.root
  className : j.className = i.className
  registry : j.registry = i.registry
  emptied : j.accessors.map Accessor.emptied = i.accessors.map Accessor.emptied
  others : ∀ n ∉ values.map (·.1), j.accessors.get? n = i.accessors.get? n
  taken : ∀ n, j.get? n = i.get? n ∨ ∃ v, (n, v) ∈ values ∧ j.get? n = some v
  heard : ∃ told : List String, told.Sublist (values.map (·.1)) ∧
    j.component = ⟨i.component.kind, i.component.received ++ told.map Hook.changed⟩

namespace Confined

theorem refl (i : Instance) : Confined [] i i :=
  ⟨rfl, rfl, rfl, rfl, fun _ _ => rfl, fun _ => .inl rfl, [], .slnil,
    by rw [List.map_nil, List.append_nil]⟩

theorem trans (h : Confined values i j) (h' : Confined values' j k) :
    Confined (values ++ values') i k where
  root := h'.root.trans h.root
  className := h'.className.trans h.className
  registry := h'.registry.trans h.registry
  emptied := h'.emptied.trans h.emptied
  others n hn := by
    rw [List.map_append, List.mem_append, not_or] at hn
    exact (h'.others n hn.2).trans (h.others n hn.1)
  taken n := by
    rcases h'.taken n with hkept | ⟨v, hmem, hv⟩
    · rw [hkept]
      exact (h.taken n).imp_right fun ⟨v, hmem, hv⟩ => ⟨v, List.mem_append_left _ hmem, hv⟩
    · exact .inr ⟨v, List.mem_append_right _ hmem, hv⟩
  heard := by
    obtain ⟨told, hsub, hcomponent⟩ := h.heard
    obtain ⟨told', hsub', hcomponent'⟩ := h'.heard
    rw [List.map_append]
    refine ⟨told ++ told', hsub.append hsub', ?_⟩
    rw [hcomponent', hcomponent, List.map_append, List.append_assoc]

theorem mono (h : Confined values i j) (hsub : values.Sublist values') : Confined values' i j where
  root := h.root
  className := h.className
  registry := h.registry
  emptied := h.emptied
  others n hn := h.others n fun hmem => hn ((hsub.map _).subset hmem)
  taken n := (h.taken n).imp_right fun ⟨v, hmem, hv⟩ => ⟨v, hsub.subset hmem, hv⟩
  heard := by
    obtain ⟨told, htold, hcomponent⟩ := h.heard
    exact ⟨told, htold.trans (hsub.map _), hcomponent⟩

theorem get?_emptied (h : Confined values i j) (name : String) :
    (j.accessors.get? name).map Accessor.emptied = (i.accessors.get? name).map Accessor.emptied := by
  rw [← Table.get?_map, h.emptied, Table.get?_map]

theorem get?_of_not_mem (h : Confined values i j) (hn : name ∉ values.map (·.1)) :
    j.get? name = i.get? name := by
  rcases h.taken name with hkept | ⟨v, hmem, -⟩
  · exact hkept
  · exact absurd (List.mem_map_of_mem hmem) hn

theorem get?_of_held (h : Confined values i j) (held : ∀ p ∈ values, i.get? p.1 = some p.2)
    (name : String) : j.get? name = i.get? name := by
  rcases h.taken name with hkept | ⟨v, hmem, hv⟩
  · exact hkept
  · exact hv.trans (held _ hmem).symm

end Confined

theorem get?_withValue_cases (i : Instance) (name : String) (v : Json) (n : String) :
    (i.withValue name v).get? n = i.get? n ∨
      ∃ w, (n, w) ∈ [(name, v)] ∧ (i.withValue name v).get? n = some w := by
  by_cases hn : n = name
  · subst hn
    exact .inr ⟨v, List.mem_singleton_self _, Table.get?_put_self _ _ _⟩
  · exact .inl (Table.get?_put_of_ne _ _ hn)

theorem confined_withValue (i : Instance) (name : String) (v : Json) :
    Confined [(name, v)] i (i.withValue name v) where
  root := rfl
  className := rfl
  registry := rfl
  emptied := rfl
  others _ _ := rfl
  taken := get?_withValue_cases i name v
  heard := ⟨[], List.nil_sublist _, by rw [List.map_nil, List.append_nil]; rfl⟩

theorem confined_notify (i : Instance) (name : String) (v : Json) :
    Confined [(name, v)] i ((i.withValue name v).notify name) where
  root := rfl
  className := rfl
  registry := rfl
  emptied := rfl
  others _ _ := rfl
  taken := get?_withValue_cases i name v
  heard := ⟨[name], .refl _, rfl⟩

theorem confined_regenerated {a : NodeId} {former : List Instance}
    (hget : i.accessors.get? name = some (.iterating a view former)) (batch : List Instance)
    (v : Json) : Confined [(name, v)] i
      (((i.withAccessor name (.iterating a view batch)).withValue name v).notify name) where
  root := rfl
  className := rfl
  registry := rfl
  emptied := by
    have hold := Table.get?_map Accessor.emptied i.accessors name
    rw [hget] at hold
    exact (Table.map_put _ _ _ _).trans (Table.put_of_get? hold)
  others n hn := Table.get?_put_of_ne _ _ (by simpa using hn)
  taken := get?_withValue_cases i name v
  heard := ⟨[name], .refl _, rfl⟩

theorem confined_assignWith (build : Build) (s : Stage) (i : Instance) (name : String) (v : Json) :
    Confined [(name, v)] i (assignWith build s i name v).self := by
  have hnone : Confined [(name, v)] i i := (Confined.refl i).mono (List.nil_sublist _)
  rw [assignWith]
  cases hget : i.accessors.get? name with
  | none => exact confined_withValue i name v
  | some accessor =>
    cases accessor with
    | bound ls => exact confined_notify i name v
    | iterating a view former =>
      cases v with
      | array items =>
        dsimp only
        rw [assignItems]
        rcases buildAll build view s items [] with ⟨s', e | batch⟩
        · exact hnone
        · exact confined_regenerated hget batch (.array items)
      | _ => exact hnone

theorem confined_assignAllWith (build : Build) (s : Stage) (i : Instance)
    (values : List (String × Json)) :
    Confined values i (assignAllWith build s i values).self := by
  induction values generalizing s i with
  | nil => exact .refl i
  | cons value values ih =>
    obtain ⟨name, v⟩ := value
    have hone := confined_assignWith build s i name v
    rw [assignAllWith]
    generalize assignWith build s i name v = o at hone
    obtain ⟨s', i', _ | e⟩ := o
    · exact hone.trans (ih s' i')
    · exact hone.mono (by simp)

/-! ### Builds that fail -/

theorem build_of_error (h : registry.create view.targetClass = .error e) (s : Stage) (item : Json) :
    Instance.build registry s view item = (s, .error e) := by
  obtain ⟨depth, hdepth⟩ := view.exists_depth_eq
  rw [Instance.build, hdepth, buildWithin, buildWith]
  dsimp only [Option.getD_none]
  rw [h]

theorem exists_build_of_ok (h : registry.create view.targetClass = .ok c) (s : Stage) (item : Json) :
    ∃ s' i, Instance.build registry s view item = (s', .ok i) := by
  obtain ⟨depth, hdepth⟩ := view.exists_depth_eq
  rw [Instance.build, hdepth, buildWithin, buildWith]
  dsimp only [Option.getD_none]
  rw [h]
  exact ⟨_, _, rfl⟩

theorem exists_buildAll_of_ok (h : registry.create view.targetClass = .ok c) (s : Stage)
    (items : List Json) (done : List Instance) :
    ∃ s' batch, buildAll (Instance.build registry) view s items done = (s', .ok batch) := by
  induction items generalizing s done with
  | nil => exact ⟨s, done, rfl⟩
  | cons item items ih =>
    obtain ⟨s', i, hbuild⟩ := exists_build_of_ok h s item
    rw [buildAll, hbuild]
    exact ih s' (done ++ [i])

/-- What keeps a property from taking a value: there are items to build instances for, and their class
is not there. -/
def failure? (i : Instance) (name : String) (v : Json) : Option EngineError :=
  match i.accessors.get? name, v with
  | some (.iterating _ view _), .array (_ :: _) =>
    match i.registry.create view.targetClass with
    | .error e => some e
    | .ok _ => none
  | _, _ => none

theorem assign_of_failure (h : i.failure? name v = some e) (s : Stage) :
    i.assign s name v = ⟨s, i, some e⟩ := by
  unfold failure? at h
  rw [assign, assignWith]
  split at h
  · rename_i a view former item items hget
    rw [hget]
    dsimp only
    rw [assignItems, buildAll]
    split at h
    · rename_i e' hcreate
      obtain rfl := Option.some.inj h
      rw [build_of_error hcreate]
      rfl
    · cases h
  · cases h

theorem error_assign (s : Stage) (i : Instance) (name : String) (v : Json) :
    (i.assign s name v).error = i.failure? name v := by
  cases hfailure : i.failure? name v with
  | some e => rw [assign_of_failure hfailure]
  | none =>
    rw [assign, assignWith]
    cases hget : i.accessors.get? name with
    | none => rfl
    | some accessor =>
      cases accessor with
      | bound ls => rfl
      | iterating a view former =>
        cases v with
        | array items =>
          dsimp only
          rw [assignItems]
          cases items with
          | nil => rfl
          | cons item items =>
            cases hcreate : i.registry.create view.targetClass with
            | error e => simp [failure?, hget, hcreate] at hfailure
            | ok c =>
              obtain ⟨s', batch, hall⟩ := exists_buildAll_of_ok hcreate s (item :: items) []
              rw [hall]
        | _ => rfl

theorem Confined.failure? (h : Confined values i j) (name : String) (v : Json) :
    j.failure? name v = i.failure? name v := by
  have hget := h.get?_emptied name
  unfold Instance.failure?
  rw [h.registry]
  rcases hj : j.accessors.get? name with _ | ⟨ls⟩ | ⟨a, view, cs⟩ <;>
    rcases hi : i.accessors.get? name with _ | ⟨ls'⟩ | ⟨a', view', cs'⟩ <;>
      simp only [hj, hi, Option.map_some, Option.map_none, Accessor.emptied, Option.some.injEq,
        Accessor.iterating.injEq, reduceCtorEq] at hget
  · rfl
  · cases v <;> rfl
  · obtain ⟨-, rfl, -⟩ := hget
    cases v with
    | array items => cases items <;> rfl
    | _ => rfl

/-! ### Where assignments are cut off -/

/-- What a run of assignments comes to that an error has cut off: those before are made, the one that
fails changes nothing, and those behind it are not made. -/
structure CutOff (s : Stage) (i : Instance) (before : List (String × Json)) (failed : String × Json)
    (e : EngineError) (o : Outcome) : Prop where
  made : ∀ p ∈ before, i.failure? p.1 p.2 = none
  failure : i.failure? failed.1 failed.2 = some e
  outcome : o = { assignAllWith (Instance.build i.registry) s i before with error := some e }

theorem CutOff.confined {before : List (String × Json)} {failed : String × Json} {o : Outcome}
    (h : CutOff s i before failed e o) : Confined before i o.self := by
  rw [h.outcome]
  exact confined_assignAllWith _ s i before

theorem CutOff.eq_of_nil {failed : String × Json} {o : Outcome} (h : CutOff s i [] failed e o) :
    o = ⟨s, i, some e⟩ := h.outcome

theorem exists_cutOff (hregistry : i.registry = registry)
    (h : (assignAllWith (Instance.build registry) s i values).error = some e) :
    ∃ before failed after, values = before ++ failed :: after ∧
      CutOff s i before failed e (assignAllWith (Instance.build registry) s i values) := by
  subst hregistry
  -- What each of the others can fail at is the same before the first assignment and after it.
  induction values generalizing s i with
  | nil => cases h
  | cons value values ih =>
    obtain ⟨name, v⟩ := value
    have hconfined := confined_assignWith (Instance.build i.registry) s i name v
    have herror : (assignWith (Instance.build i.registry) s i name v).error = i.failure? name v :=
      error_assign s i name v
    rcases hone : assignWith (Instance.build i.registry) s i name v with ⟨s', i', _ | e'⟩
    · rw [hone] at hconfined herror
      have hrest : assignAllWith (Instance.build i.registry) s i ((name, v) :: values) =
          assignAllWith (Instance.build i'.registry) s' i' values := by
        rw [assignAllWith, hone, hconfined.registry]
      rw [hrest] at h ⊢
      obtain ⟨before, failed, after, rfl, hcut⟩ := ih h
      refine ⟨(name, v) :: before, failed, after, rfl, fun p hp => ?_, ?_, ?_⟩
      · rcases List.mem_cons.mp hp with rfl | hp
        · exact herror.symm
        · rw [← hconfined.failure?]
          exact hcut.made p hp
      · rw [← hconfined.failure?]
        exact hcut.failure
      · rw [hcut.outcome, assignAllWith, hone, hconfined.registry]
    · rw [hone] at herror
      have hfirst := assign_of_failure herror.symm s
      have hstop : assignAllWith (Instance.build i.registry) s i ((name, v) :: values) =
          ⟨s, i, some e'⟩ := by
        rw [assignAllWith, show assignWith (Instance.build i.registry) s i name v = _ from hfirst]
      rw [hstop] at h ⊢
      obtain rfl := Option.some.inj h
      exact ⟨[], (name, v), values, rfl, by simp, herror.symm, rfl⟩

end Instance

end LiveMarkup
