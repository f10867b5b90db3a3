import LiveMarkup.Proofs.Store.Refusing
import LiveMarkup.Proofs.Picture.Restriction

/-!
# What is in scope

Text is written for properties of an instance, and what it reads are properties of the instance as well.
This is so for a copy of a skeleton when all of it is bound, it stays so when more is bound below the root,
and the instances in regions are copies again.
-/

namespace LiveMarkup

open Document

namespace Instance

variable {i g g' : Instance} {name n m : String} {way : List (String × Nat)}

/-- Whatever locations of the instance read, and of the instances that it keeps, is one of the
properties. -/
inductive Scoped : Instance → Prop where
  | mk {i : Instance}
      (own : ∀ n ls, i.accessors.get? n = some (.bound ls) → ∀ r ∈ ls, ∀ m ∈ r.expression.reads n,
        m ∈ i.accessors.names)
      (kept : ∀ n, ∀ c ∈ i.children n, Scoped c) : Scoped i

namespace Scoped

theorem own (h : i.Scoped) {ls : List BoundLocation} (hget : i.accessors.get? n = some (.bound ls))
    {r : BoundLocation} (hr : r ∈ ls) (hm : m ∈ r.expression.reads n) : m ∈ i.accessors.names := by
  cases h with
  | mk own _ => exact own n ls hget r hr m hm

theorem kept (h : i.Scoped) {c : Instance} (hc : c ∈ i.children n) : c.Scoped := by
  cases h with
  | mk _ kept => exact kept n c hc

theorem of_eq (h : i.Scoped) (haccessors : g.accessors = i.accessors) : g.Scoped := by
  refine .mk (fun n ls hget r hr m hm => ?_) fun n c hc => ?_
  · rw [haccessors] at hget ⊢
    exact h.own hget hr hm
  · rw [children_eq, haccessors, ← children_eq] at hc
    exact h.kept hc

theorem withItems (h : i.Scoped) {a : NodeId} {view : Blueprint} {former cs : List Instance}
    (hget : i.accessors.get? name = some (.iterating a view former)) (hcs : ∀ c ∈ cs, c.Scoped) :
    (i.withAccessor name (.iterating a view cs)).Scoped := by
  refine .mk (fun n ls hn r hr m hm => ?_) fun n c hc => ?_
  · by_cases hname : n = name
    · subst hname
      rw [withAccessor, Table.get?_put_self] at hn
      cases hn
    · rw [withAccessor, Table.get?_put_of_ne _ _ hname] at hn
      exact Table.mem_names_put.mpr (.inl (h.own hn hr hm))
  · by_cases hname : n = name
    · subst hname
      rw [children_of_get? (Table.get?_put_self _ _ _)] at hc
      exact hcs c hc
    · rw [children_eq, withAccessor, Table.get?_put_of_ne _ _ hname, ← children_eq] at hc
      exact h.kept hc

theorem descend? (h : i.Scoped) (hg : i.descend? way = some g) : g.Scoped := by
  induction way generalizing i with
  | nil => exact Option.some.inj hg ▸ h
  | cons q way ih =>
    obtain ⟨name, place⟩ := q
    obtain ⟨c, hc, hg⟩ := Option.bind_eq_some_iff.mp hg
    exact ih (h.kept (List.mem_of_getElem? hc)) hg

theorem replaceAt (h : i.Scoped) (hg : i.descend? way = some g) (hg' : g'.Scoped) :
    (i.replaceAt g' way).Scoped := by
  induction way generalizing i with
  | nil => exact hg'
  | cons q way ih =>
    obtain ⟨name, place⟩ := q
    obtain ⟨c, hc, hg⟩ := Option.bind_eq_some_iff.mp hg
    have hmem := List.mem_of_getElem? hc
    obtain ⟨a, view, cs, hget, hcs⟩ := exists_get?_of_mem_children hmem
    rw [replaceAt_cons hc, withChild, hget]
    refine h.withItems hget fun x hx => ?_
    rcases List.mem_or_eq_of_mem_set hx with hx | rfl
    · exact h.kept (hcs ▸ hx)
    · exact ih (h.kept hmem) hg

theorem of_bound {b : Blueprint} {d : Document} {c : Shape} {as : List (String × Accessor Instance)}
    (hb : b.Bound d c as) (haccessors : i.accessors = ⟨as⟩) : i.Scoped := by
  refine .mk (fun n ls hget r hr m hm => ?_) fun n c hc => ?_
  · rw [haccessors] at hget ⊢
    exact hb.closed n ls r m ((Table.get?_eq_some_iff hb.names).mp hget) hr hm
  · obtain ⟨a, view, cs, hget, rfl⟩ := exists_get?_of_mem_children hc
    rw [haccessors] at hget
    have hnone : i.children n = [] := hb.childless _ ((Table.get?_eq_some_iff hb.names).mp hget)
    rw [hnone] at hc
    cases hc

theorem joinedAll (h : i.Scoped) {b : Blueprint} {d : Document} {c : Shape}
    {as : List (String × Accessor Instance)} (hb : b.Bound d c as) : (i.joinedAll as).Scoped := by
  refine .mk (fun n ls hget r hr m hm => ?_) fun n c hc => ?_
  · rw [mem_names_joinedAll]
    by_cases hn : n ∈ as.map (·.1)
    · obtain ⟨⟨n, a⟩, ha, rfl⟩ := List.mem_map.mp hn
      rw [get?_joinedAll_of_mem hb.names ha] at hget
      rcases i.joined_cases n a with ⟨more, old, rfl, hold, hjoined⟩ | hjoined
      · obtain rfl := Accessor.bound.inj (hjoined.symm.trans (Option.some.inj hget))
        rcases List.mem_append.mp hr with hr | hr
        · exact .inl (h.own hold hr hm)
        · exact .inr (hb.closed n more r m ha hr hm)
      · obtain rfl : a = .bound ls := hjoined.symm.trans (Option.some.inj hget)
        exact .inr (hb.closed n ls r m ha hr hm)
    · rw [get?_joinedAll_of_not_mem hn] at hget
      exact .inl (h.own hget hr hm)
  · by_cases hn : n ∈ as.map (·.1)
    · obtain ⟨⟨n, a⟩, ha, rfl⟩ := List.mem_map.mp hn
      rw [children_of_get? (get?_joinedAll_of_mem hb.names ha),
        children_joined (hb.childless _ ha)] at hc
      cases hc
    · rw [children_eq, get?_joinedAll_of_not_mem hn, ← children_eq] at hc
      exact h.kept hc

end Scoped

end Instance

/-- What is built for a view is in scope, and leaves a document where more can be built. -/
def Build.Scopes (build : Build) (view : Blueprint) : Prop :=
  ∀ {s s' : Stage} {item : Json} {i : Instance}, s.document.Tidy →
    build s view item = (s', .ok i) → s'.document.Tidy ∧ i.Scoped

namespace Instance

variable {build : Build} {view b : Blueprint} {i : Instance} {name : String} {s s' : Stage}

theorem scoped_buildAll (hb : build.Scopes view) {items : List Json} {done batch : List Instance}
    (hs : s.document.Tidy) (hdone : ∀ c ∈ done, c.Scoped)
    (h : buildAll build view s items done = (s', .ok batch)) : ∀ c ∈ batch, c.Scoped := by
  induction items generalizing s done with
  | nil =>
    obtain ⟨-, h⟩ := Prod.mk.inj h
    exact Except.ok.inj h ▸ hdone
  | cons item items ih =>
    rw [buildAll] at h
    rcases hone : build s view item with ⟨s₁, e | i⟩
    · rw [hone] at h
      cases h
    · rw [hone] at h
      obtain ⟨htidy, hi⟩ := hb hs hone
      refine ih htidy (fun c hc => ?_) h
      rcases List.mem_append.mp hc with hc | hc
      · exact hdone c hc
      · exact List.mem_singleton.mp hc ▸ hi

theorem Scoped.assign (h : i.Scoped) (hs : s.document.Tidy)
    (hb : ∀ a view cs, i.accessors.get? name = some (.iterating a view cs) → build.Scopes view)
    (v : Json) : (assignWith build s i name v).self.Scoped := by
  unfold assignWith
  split
  · exact h.of_eq rfl
  · rename_i a view former hget
    split
    · rename_i items
      unfold assignItems
      rcases hall : buildAll build view s items [] with ⟨s₁, e | batch⟩
      · exact h
      · have hbatch := scoped_buildAll (hb a view former hget) hs (fun c hc => by cases hc) hall
        exact (h.withItems hget hbatch).of_eq rfl
    · exact h
  · exact h.of_eq rfl

def ScopedIn (S : Setting) (d : Document) (i : Instance) : Prop :=
  (∃ watch e k, LockstepAt S watch d e i k) ∧ i.Scoped

variable {S : Setting}

theorem ScopedIn.assign (admits : ∀ view, S.admits view → build.Alike build view ∧ build.Scopes view)
    (s : Stage) (i : Instance) (name : String) (v : Json) (h : ScopedIn S s.document i) :
    ScopedIn S (assignWith build s i name v).stage.document (assignWith build s i name v).self := by
  obtain ⟨⟨watch, e, k, hlock⟩, hscoped⟩ := h
  have hlock : LockstepAt S watch s.document (⟨e, []⟩ : Stage).document i k := hlock
  refine ⟨⟨_, _, _, (hlock.assign (fun view hview => (admits view hview).1) name v).lockstepAt⟩, ?_⟩
  exact hscoped.assign hlock.tidy.1
    (fun a view cs hget => (admits view (hlock.views name a view cs hget)).2) v

theorem ScopedIn.receive (d : Document) (i : Instance) (k : Hook) (h : ScopedIn S d i) :
    ScopedIn S d (i.receive k) := by
  obtain ⟨⟨watch, e, j, hlock⟩, hscoped⟩ := h
  exact ⟨⟨watch, e, j.receive k, hlock.receive k⟩, hscoped.of_eq rfl⟩

theorem buildWith_scopes (hb : b.IsCompiled)
    (hviews : ∀ name region, (name, region) ∈ b.regions.entries →
      build.Alike build region.view ∧ build.Scopes region.view)
    {registry : Registry} {className : Option String} {data : Json} (hs : s.document.Tidy)
    (h : buildWith build registry s b className data = (s', .ok i)) :
    s'.document.Tidy ∧ i.Scoped := by
  have halike := buildWith_alike hb (fun name region hregion => (hviews name region hregion).1) registry
    className data hs hs
  rw [h] at halike
  have htidy : s'.document.Tidy := by
    cases halike with
    | built lockstep => exact lockstep.tidy.1
  refine ⟨htidy, ?_⟩
  unfold buildWith at h
  dsimp only at h
  cases hcreate : registry.create (className.getD b.targetClass) with
  | error e =>
    rw [hcreate] at h
    cases h
  | ok component =>
    rw [hcreate] at h
    obtain ⟨-, hi⟩ := Prod.mk.inj h
    obtain rfl := Except.ok.inj hi
    obtain ⟨c, hc, hid⟩ := hs.graft b.skeleton
    obtain ⟨as, hbound⟩ := hb.exists_bound hc
    let first : Stage := s.withDocument (s.document.graft b.skeleton).1
    let bare : Instance := .new (s.document.graft b.skeleton).2 (className.getD b.targetClass) component
      registry
    obtain ⟨watch, hplanted⟩ := LockstepAt.plant (s := first) (t := first)
      (fun view => build.Alike build view ∧ build.Scopes view) hs hs hb hviews rfl rfl
      (className.getD b.targetClass) component registry
    obtain ⟨-, haccessors⟩ := hbound.bindExposures_eq (s := first) (i := bare) (fun _ => rfl) .nil
      fun n _ hn => by cases hn
    rw [hid] at haccessors
    have hscoped : (bare.bind first b bare.root).2.1.Scoped :=
      .of_bound hbound (congrArg Instance.accessors haccessors)
    exact (configureWith_preserves _ (ScopedIn.assign fun _ h => h) ScopedIn.receive data
      (ScopedIn.receive _ _ .start ⟨⟨_, _, _, hplanted⟩, hscoped⟩)).2

theorem buildWithin_scopes (registry : Registry) (hb : b.IsCompiled) {depth : Nat}
    (hdepth : b.depth ≤ depth) : (buildWithin registry depth).Scopes b := by
  induction depth generalizing b with
  | zero =>
    obtain ⟨depth, hpositive⟩ := b.exists_depth_eq
    omega
  | succ depth ih =>
    intro s s' item i hs h
    refine buildWith_scopes hb (fun name region hregion => ?_) hs h
    have hview : region.view.depth ≤ depth := by
      have hlt := Blueprint.depth_view_lt hregion
      dsimp only at hlt
      omega
    exact ⟨buildWithin_alike registry (hb.region hregion) hview hview, ih (hb.region hregion) hview⟩

theorem build_scopes (registry : Registry) (hb : b.IsCompiled) :
    (Instance.build registry).Scopes b :=
  buildWithin_scopes registry hb le_rfl

end Instance

namespace LockstepAt

variable {S : Setting} {watch : NodeId → NodeId → Prop} {s : Stage} {e : Document} {g k : Instance}
  {b : Blueprint}

theorem exists_joined (h : LockstepAt S watch s.document e g k) (hb : b.IsCompiled)
    (views : ∀ name region, (name, region) ∈ b.regions.entries → S.admits region.view) :
    ∃ (c : Shape) (as : List (String × Accessor Instance)),
      s.document.Copies (s.document.graft b.skeleton).1 c b.skeleton ∧
      c.id = (s.document.graft b.skeleton).2 ∧ b.Bound (s.document.graft b.skeleton).1 c as ∧
      (g.install s b).2 = g.joinedAll as := by
  obtain ⟨c, f, hid, hid', hc, hmirrors, hlock⟩ := h.attach b.skeleton
  obtain ⟨as, hbound⟩ := hb.exists_bound hc
  refine ⟨c, as, hc, hid, hbound, ?_⟩
  exact (LockstepAt.bindExposures hc.holds hc.nodup hbound.resolves
    (fun name region hmem => ⟨hb.region (Blueprint.mem_regions_of_mem_exposures hmem),
      views name region (Blueprint.mem_regions_of_mem_exposures hmem)⟩)
    (s := s.withDocument _) (t := ⟨_, []⟩) hlock hmirrors hid hid').2.2

end LockstepAt

namespace Instance

variable {S : Setting} {s : Stage} {i : Instance} {r : Request}

theorem ScopedIn.apply (admits : S.admits = Blueprint.IsCompiled) (hr : r.Compiled)
    (h : ScopedIn S s.document i) : (r.apply s i).2.1.Scoped := by
  have hviews : ∀ registry view, S.admits view →
      (Instance.build registry).Alike (Instance.build registry) view ∧
        (Instance.build registry).Scopes view := by
    intro registry view hview
    rw [admits] at hview
    exact ⟨build_alike registry hview, build_scopes registry hview⟩
  cases r with
  | set name v =>
    have hset := assignAllWith_preserves _ (ScopedIn.assign (hviews i.registry))
      ((name, v) :: i.dependents name v) h
    change ScopedIn S (i.set s name v).stage.document (i.set s name v).self at hset
    rw [Request.apply, Session.settled]
    split <;> exact hset.2
  | configure data =>
    exact (configureWith_preserves _ (ScopedIn.assign (hviews i.registry)) ScopedIn.receive data h).2
  | extend b =>
    obtain ⟨⟨watch, e, k, hlock⟩, hscoped⟩ := h
    have hregions : ∀ name region, (name, region) ∈ b.regions.entries → S.admits region.view :=
      fun name region hregion => admits ▸ hr.region hregion
    obtain ⟨c, as, -, -, hbound, hjoined⟩ := hlock.exists_joined hr hregions
    obtain ⟨_, _, -, -, hinstalled, -⟩ := hlock.install (t := ⟨e, []⟩) hr hregions
    have hall := assignAllWith_preserves _
      (ScopedIn.assign (hviews (i.install s b).2.registry)) ((i.install s b).2.heldValues b)
      (s := (i.install s b).1) (i := (i.install s b).2) ⟨⟨_, _, _, hinstalled⟩, ?_⟩
    · rw [Request.apply, extend_eq]
      dsimp only
      split <;> exact hall.2
    · rw [hjoined]
      exact hscoped.joinedAll hbound

end Instance

namespace Store

variable {d : Document} {c : Store} {acts : List Act} {a : Act} {name : String} {i : Instance}

def Scoped (c : Store) : Prop := ∀ name i, c.residents.get? name = some i → i.Scoped

theorem Scoped.put (h : c.Scoped) (hi : i.Scoped) (d : Document) (name : String) :
    Scoped ⟨d, c.residents.put name i⟩ := by
  intro n j hj
  dsimp only at hj
  by_cases hname : n = name
  · rw [hname, Table.get?_put_self] at hj
    exact Option.some.inj hj ▸ hi
  · rw [Table.get?_put_of_ne _ _ hname] at hj
    exact h n j hj

theorem Scoped.perform (h : c.Scoped) (ha : a.Compiled) (tidy : c.document.Tidy)
    (runs : ∀ name way i, c.find? name way = some i →
      ∃ S watch e k, S.admits = Blueprint.IsCompiled ∧ LockstepAt S watch c.document e i k) :
    (c.perform a).1.Scoped := by
  cases a with
  | place name registry view className data =>
    rw [Store.perform]
    split
    · exact h
    · split
      · rename_i s i hbuild
        refine h.put (Instance.buildWith_scopes ha (fun _ _ hregion => ⟨?_, ?_⟩) tidy hbuild).2 _ _
        · exact Instance.build_alike registry (ha.region hregion)
        · exact Instance.build_scopes registry (ha.region hregion)
      · exact h
  | host name registry tree className =>
    rw [Store.perform]
    split
    · exact h
    · split
      · exact h
      · refine h.put (.mk (fun n ls hget => ?_) fun n c hc => ?_) _ _
        · cases hget
        · cases hc
  | ask name way request =>
    rw [Store.perform]
    split
    · exact h
    · rename_i i hi
      split
      · exact h
      · rename_i g hg
        have hscoped := h name i hi
        obtain ⟨S, watch, e, k, admits, hlock⟩ := runs name way g
          (Option.bind_eq_some_iff.mpr ⟨i, hi, hg⟩)
        have hfirst : Instance.ScopedIn S c.document g :=
          ⟨⟨watch, e, k, hlock⟩, hscoped.descend? hg⟩
        exact h.put (hscoped.replaceAt hg (hfirst.apply (s := ⟨_, []⟩) admits ha)) _ _

theorem scoped_run (tidy : d.Tidy) (compiled : ∀ a ∈ acts, a.Compiled) :
    (run ⟨d, .empty⟩ acts).Scoped := by
  induction acts using List.reverseRecOn with
  | nil =>
    intro name i hi
    cases hi
  | append_singleton acts a ih =>
    have hbefore : ∀ a ∈ acts, a.Compiled := fun a ha => compiled a (List.mem_append_left _ ha)
    rw [run, List.foldl_append]
    refine (ih hbefore).perform (compiled a (List.mem_append_right _ List.mem_cons_self))
      ((Shared.empty tidy).run hbefore).1.tidy fun name way i hi => ?_
    exact Reached.exists_lockstepAt ⟨d, acts, name, way, tidy, hbefore, rfl, hi⟩

/-- Whatever led to the instance, its texts read its own properties only. -/
theorem Reached.scoped (h : Reached d i) : i.Scoped := by
  obtain ⟨d₀, acts, resident, way, tidy, compiled, rfl, found⟩ := h
  obtain ⟨j, hj, hi⟩ := Option.bind_eq_some_iff.mp found
  exact (scoped_run tidy compiled resident j hj).descend? hi

end Store

end LiveMarkup
