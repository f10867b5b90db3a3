import LiveMarkup.Proofs.Store.Installing
import LiveMarkup.Proofs.Template.Rendering

namespace LiveMarkup

open Document

/-- Two runs from `d` and `e` have built the same, or have failed in the same way and left nothing. -/
inductive EndsAlike {α : Type} (family : α → List Instance) (d e : Document) :
    Stage × Except EngineError α → Stage × Except EngineError α → Prop where
  | built {s t : Stage} {i j : α}
      (lockstep : Lockstep ⟨d, 0⟩ d e s.document t.document (family i) (family j)) :
      EndsAlike family d e (s, .ok i) (t, .ok j)
  | failed {s t : Stage} (error : EngineError)
      (lockstep : Lockstep ⟨d, 0⟩ d e s.document t.document [] []) :
      EndsAlike family d e (s, .error error) (t, .error error)

/-- Two ways to build instances of a blueprint always end alike. -/
def Build.Alike (build build' : Build) (view : Blueprint) : Prop :=
  ∀ (s t : Stage) (item : Json), s.document.Tidy → t.document.Tidy →
    EndsAlike (fun i => [i]) s.document t.document (build s view item) (build' t view item)

theorem Build.Alike.buildAll {build build' : Build} {view : Blueprint}
    (hb : build.Alike build' view) {d e : Document} {s t : Stage} (items : List Json)
    {done done' : List Instance} (h : Lockstep ⟨d, 0⟩ d e s.document t.document done done') :
    EndsAlike id d e (Instance.buildAll build view s items done)
      (Instance.buildAll build' view t items done') := by
  induction items generalizing s t done done' with
  | nil => exact .built h
  | cons item items ih =>
    have hone := hb s t item h.tidy.1 h.tidy.2
    rw [Instance.buildAll, Instance.buildAll]
    generalize build s view item = r at hone ⊢
    generalize build' t view item = r' at hone ⊢
    cases hone with
    | built lockstep => exact ih (h.append lockstep)
    | failed error lockstep =>
      have hall := h.append lockstep
      rw [List.append_nil, List.append_nil] at hall
      exact .failed error hall.discard

structure Outcome.InStep (S : Setting) (watch : NodeId → NodeId → Prop) (o o' : Outcome) : Prop where
  lockstepAt : LockstepAt S watch o.stage.document o'.stage.document o.self o'.self
  error : o.error = o'.error

namespace LockstepAt

variable {S : Setting} {watch : NodeId → NodeId → Prop} {d e d' e' : Document} {g k : Instance}
  {name : String} {build build' : Build} {s t : Stage}

theorem idle (h : LockstepAt S watch d e g k) (undone : Lockstep ⟨d, 0⟩ d e d' e' [] []) :
    LockstepAt S watch d' e' g k := by
  refine h.next (fun f s i hg t hk _ => ?_) h.views
  obtain ⟨f₁, ss, t₁, -⟩ := undone.same
  obtain rfl : ss = [] := List.map_eq_nil_iff.mp t₁.left.roots
  obtain ⟨f', hf', -, tall⟩ := t.append t₁
  have hsame : ∀ x ∈ s.ids, f' x = f x := by simpa using hf'
  rw [List.append_nil, List.append_nil] at tall
  rw [Instance.replaceAt_self hg]
  refine ⟨f', s, hsame, tall, hk.trans (t.rename_congr hg hsame).symm, ?_, .idle t₁.left.grown,
    fun x hx => ?_⟩
  · have hreach := undone.reaches.add ↑[i]
    rwa [EngineState.add, EngineState.add, zero_add, Multiset.coe_nil, zero_add] at hreach
  · exact hx.grown t₁.left.grown

theorem get?_eq (h : LockstepAt S watch d e g k) : k.accessors.names = g.accessors.names ∧
    k.values = g.values ∧ k.registry = g.registry := by
  obtain ⟨f, rfl⟩ := h.eq_rename
  exact ⟨Instance.names_rename f g, Instance.values_rename f g, Instance.registry_rename f g⟩

/-- The views of regions are compiled, and an accessor of one run has its counterpart in the other. -/
theorem exists_counterpart (h : LockstepAt S watch d e g k) {a : NodeId} {view : Blueprint}
    {cs : List Instance} (hget : g.accessors.get? name = some (.iterating a view cs)) :
    d.Own g.stops a g.root ∧ view.IsCompiled ∧ S.admits view ∧
      ∃ a' cs', k.accessors.get? name = some (.iterating a' view cs') := by
  obtain ⟨f, s, i, hg, t, hk, -⟩ := h.exists_state
  have hgs := ((t.left.embedded i List.mem_cons_self).descend? hg).1
  refine ⟨hgs.own_of_get? hget a List.mem_cons_self, (hgs.placed_of_get? hget).1,
    h.views name a view cs hget, ?_⟩
  rw [hk, Instance.get?_rename, hget]
  exact ⟨_, _, rfl⟩

theorem assignBound (h : LockstepAt S watch s.document t.document g k) {ls ls' : List BoundLocation}
    (hget : g.accessors.get? name = some (.bound ls))
    (hget' : k.accessors.get? name = some (.bound ls')) (v : Json) :
    Outcome.InStep S watch (g.assignBound s name ls v) (k.assignBound t name ls' v) := by
  have hvalues : (k.withValue name v).values = (g.withValue name v).values := by
    rw [Instance.withValue, Instance.withValue, h.get?_eq.2.1]
  have hwritten := h.write hget hget' (g.withValue name v).values
  rw [Instance.assignBound, Instance.assignBound, hvalues]
  exact ⟨(hwritten.withValue name v).notify name, rfl⟩

theorem renewItems (h : LockstepAt S watch s.document t.document g k) {a a' : NodeId} {view : Blueprint}
    {former former' batch batch' : List Instance}
    (hget : g.accessors.get? name = some (.iterating a view former))
    (hget' : k.accessors.get? name = some (.iterating a' view former'))
    (lockstep : Lockstep ⟨s.document, 0⟩ s.document t.document d e batch batch') :
    LockstepAt S watch (d.renewed former batch a) (e.renewed former' batch' a')
      (g.withAccessor name (.iterating a view batch))
      (k.withAccessor name (.iterating a' view batch')) := by
  obtain ⟨hown, hcompiled, hadmits, -⟩ := h.exists_counterpart hget
  have hnew : LockstepAt S watch (d.renewed (g.children name) batch a)
      (e.renewed (k.children name) batch' a') (g.withAccessor name (.iterating a view batch))
      (k.withAccessor name (.iterating a' view batch')) := by
    refine h.renew lockstep name rfl ?_ (fun b v cs he => ?_) fun f hk hbatch _ => ?_
    · rintro x (rfl | hx)
      · exact hown
      · rw [List.mem_singleton.mp hx]
        exact hown
    · obtain ⟨rfl, rfl, -⟩ := Accessor.iterating.inj he
      exact ⟨rfl, hcompiled, hadmits⟩
    · rw [hk, Instance.get?_rename, hget] at hget'
      obtain ⟨rfl, -, -⟩ := Accessor.iterating.inj (Option.some.inj hget')
      exact ⟨.inr rfl, by rw [hbatch]; rfl⟩
  rwa [Instance.children_of_get? hget, Instance.children_of_get? hget'] at hnew

theorem assignItems (h : LockstepAt S watch s.document t.document g k) {a a' : NodeId} {view : Blueprint}
    {former former' : List Instance} (alike : build.Alike build' view)
    (hget : g.accessors.get? name = some (.iterating a view former))
    (hget' : k.accessors.get? name = some (.iterating a' view former')) (items : List Json) :
    Outcome.InStep S watch (Instance.assignItems build s g name a view former items)
      (Instance.assignItems build' t k name a' view former' items) := by
  have hall := alike.buildAll items (Lockstep.nil h.tidy.1 h.tidy.2)
  rw [Instance.assignItems, Instance.assignItems]
  generalize Instance.buildAll build view s items [] = r at hall ⊢
  generalize Instance.buildAll build' view t items [] = r' at hall ⊢
  cases hall with
  | failed error lockstep => exact ⟨h.idle lockstep, rfl⟩
  | built lockstep => exact ⟨((h.renewItems hget hget' lockstep).withValue name _).notify name, rfl⟩

theorem assign (admits : ∀ view, S.admits view → build.Alike build' view)
    (h : LockstepAt S watch s.document t.document g k) (name : String) (v : Json) :
    Outcome.InStep S watch (Instance.assignWith build s g name v)
      (Instance.assignWith build' t k name v) := by
  rw [Instance.assignWith, Instance.assignWith]
  rcases hget : g.accessors.get? name with _ | ⟨ls⟩ | ⟨a, view, former⟩
  · have hget' : k.accessors.get? name = none := by
      obtain ⟨f, rfl⟩ := h.eq_rename
      rw [Instance.get?_rename, hget, Option.map_none]
    rw [hget']
    exact ⟨h.withValue name v, rfl⟩
  · obtain ⟨ls', hget'⟩ : ∃ ls', k.accessors.get? name = some (.bound ls') := by
      obtain ⟨f, rfl⟩ := h.eq_rename
      exact ⟨_, by rw [Instance.get?_rename, hget]; rfl⟩
    rw [hget']
    exact h.assignBound hget hget' v
  · obtain ⟨-, -, hadmits, a', former', hget'⟩ := h.exists_counterpart hget
    rw [hget']
    dsimp only
    split
    · exact h.assignItems (admits view hadmits) hget hget' _
    · exact ⟨h, rfl⟩

theorem assignAll (admits : ∀ view, S.admits view → build.Alike build' view)
    (values : List (String × Json)) (h : LockstepAt S watch s.document t.document g k) :
    Outcome.InStep S watch (Instance.assignAllWith build s g values)
      (Instance.assignAllWith build' t k values) := by
  induction values generalizing s t g k with
  | nil => exact ⟨h, rfl⟩
  | cons value values ih =>
    obtain ⟨name, v⟩ := value
    have hone := h.assign admits name v
    rw [Instance.assignAllWith, Instance.assignAllWith]
    generalize Instance.assignWith build s g name v = o at hone ⊢
    generalize Instance.assignWith build' t k name v = o' at hone ⊢
    obtain ⟨s₁, g₁, error⟩ := o
    obtain ⟨t₁, k₁, error'⟩ := o'
    obtain rfl : error = error' := hone.error
    cases error with
    | none => exact ih hone.lockstepAt
    | some e => exact hone

theorem set (admits : ∀ view, S.admits view → build.Alike build' view)
    (h : LockstepAt S watch s.document t.document g k) (name : String) (v : Json) :
    Outcome.InStep S watch (Instance.setWith build s g name v)
      (Instance.setWith build' t k name v) := by
  rw [Instance.setWith, Instance.setWith, Instance.dependents, Instance.dependents, h.get?_eq.1]
  exact h.assignAll admits _

theorem takeAll (admits : ∀ view, S.admits view → build.Alike build' view) (data : Json)
    (names : List String) (h : LockstepAt S watch s.document t.document g k) :
    LockstepAt S watch (Instance.takeAllWith build data s g names).1.document
      (Instance.takeAllWith build' data t k names).1.document
      (Instance.takeAllWith build data s g names).2
      (Instance.takeAllWith build' data t k names).2 := by
  induction names generalizing s t g k with
  | nil => exact h
  | cons name names ih =>
    rw [Instance.takeAllWith, Instance.takeAllWith]
    cases data.resolve? name with
    | none => exact ih h
    | some v =>
      have hone := h.assign admits name v
      dsimp only
      generalize Instance.assignWith build s g name v = o at hone ⊢
      generalize Instance.assignWith build' t k name v = o' at hone ⊢
      obtain ⟨s₁, g₁, error⟩ := o
      obtain ⟨t₁, k₁, error'⟩ := o'
      obtain rfl : error = error' := hone.error
      cases error with
      | none => exact ih hone.lockstepAt
      | some e => exact ih (s := s₁.say _) (t := t₁.say _) hone.lockstepAt

theorem configure (admits : ∀ view, S.admits view → build.Alike build' view) (data : Json)
    (h : LockstepAt S watch s.document t.document g k) :
    LockstepAt S watch (Instance.configureWith build s g data).1.document
      (Instance.configureWith build' t k data).1.document
      (Instance.configureWith build s g data).2 (Instance.configureWith build' t k data).2 := by
  rw [Instance.configureWith, Instance.configureWith, h.get?_eq.1]
  by_cases hnull : data.isNull = true
  · rw [if_pos hnull, if_pos hnull]
    exact h.receive _
  · rw [if_neg hnull, if_neg hnull]
    exact (h.takeAll admits data _).receive _

end LockstepAt

namespace Instance

variable {build build' : Build} {b : Blueprint}

theorem buildWith_alike (hb : b.IsCompiled)
    (hviews : ∀ name region, (name, region) ∈ b.regions.entries → build.Alike build' region.view)
    (registry : Registry) (className : Option String) (data : Json) {s t : Stage}
    (hs : s.document.Tidy) (ht : t.document.Tidy) :
    EndsAlike (fun i => [i]) s.document t.document (buildWith build registry s b className data)
      (buildWith build' registry t b className data) := by
  rw [buildWith, buildWith]
  dsimp only
  cases registry.create (className.getD b.targetClass) with
  | error e => exact .failed e (Lockstep.nil hs ht)
  | ok component =>
    dsimp only
    obtain ⟨watch, hplanted⟩ := LockstepAt.plant (s := s.withDocument (s.document.graft b.skeleton).1)
      (t := t.withDocument (t.document.graft b.skeleton).1) (fun view => build.Alike build' view) hs ht
      hb hviews rfl rfl (className.getD b.targetClass) component registry
    exact .built ((hplanted.receive .start).configure (fun _ h => h) data).lockstep

/-- How much deeper than its regions nest an instance may be built does not matter. -/
theorem buildWithin_alike (registry : Registry) (hb : b.IsCompiled) {m n : Nat} (hm : b.depth ≤ m)
    (hn : b.depth ≤ n) : (buildWithin registry m).Alike (buildWithin registry n) b := by
  induction m generalizing b n with
  | zero =>
    obtain ⟨depth, hdepth⟩ := b.exists_depth_eq
    omega
  | succ m ih =>
    cases n with
    | zero =>
      obtain ⟨depth, hdepth⟩ := b.exists_depth_eq
      omega
    | succ n =>
      intro s t item hs ht
      refine buildWith_alike hb (fun name region hregion => ?_) registry none item hs ht
      have hdepth := Blueprint.depth_view_lt hregion
      refine ih (hb.region hregion) ?_ ?_
      · dsimp only at hdepth
        omega
      · dsimp only at hdepth
        omega

theorem build_alike (registry : Registry) (hb : b.IsCompiled) :
    (Instance.build registry).Alike (Instance.build registry) b :=
  buildWithin_alike registry hb le_rfl le_rfl

theorem instantiate_alike (registry : Registry) (hb : b.IsCompiled) (className : Option String)
    (data : Option Json) {s t : Stage} (hs : s.document.Tidy) (ht : t.document.Tidy) :
    EndsAlike (fun i => [i]) s.document t.document (instantiate registry s b className data)
      (instantiate registry t b className data) :=
  buildWith_alike hb (fun _ _ hregion => build_alike registry (hb.region hregion)) registry className
    _ hs ht

end Instance

end LiveMarkup
