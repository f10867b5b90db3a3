import LiveMarkup.Proofs.Store.Renamed
import LiveMarkup.Proofs.Store.Transitions

/-!
# Two runs in lockstep

Two runs do the same to instances that are the same up to a renaming of handles, each in a document of its
own. In every state of the runs they still are. What the first run does is a sequence of steps.
-/

namespace LiveMarkup

open Document

/-- Two runs have come from `d₀` and `e₀` to the same instances, the first one by steps from `w`. -/
structure Lockstep (w : EngineState) (d₀ e₀ d e : Document) (is js : List Instance) : Prop where
  same : ∃ f ss, Renamed d₀ e₀ f ss d e is ∧ js = is.map (Instance.rename f)
  reaches : w.Reaches ⟨d, ↑is⟩

namespace Lockstep

variable {d₀ e₀ d e d' e' : Document} {is js is' js' : List Instance}

theorem nil (hd : d.Tidy) (he : e.Tidy) : Lockstep ⟨d, 0⟩ d e d e [] [] :=
  ⟨⟨id, [], .nil id hd he, rfl⟩, .refl⟩

theorem tidy {w : EngineState} (h : Lockstep w d₀ e₀ d e is js) : d.Tidy ∧ e.Tidy := by
  obtain ⟨f, ss, t, -⟩ := h.same
  exact ⟨t.left.grown.tidy, t.right.grown.tidy⟩

theorem exists_renamed {w : EngineState} {i j : Instance} (h : Lockstep w d₀ e₀ d e [i] [j]) :
    ∃ f s, Renamed d₀ e₀ f [s] d e [i] ∧ j = i.rename f := by
  obtain ⟨f, ss, t, hj⟩ := h.same
  have hlength := congrArg List.length t.left.roots
  rw [List.length_map, List.length_map] at hlength
  obtain ⟨s, rfl⟩ := List.length_eq_one_iff.mp hlength
  exact ⟨f, s, t, (List.cons.inj hj).1⟩

theorem append (h : Lockstep ⟨d₀, 0⟩ d₀ e₀ d e is js) (h' : Lockstep ⟨d, 0⟩ d e d' e' is' js') :
    Lockstep ⟨d₀, 0⟩ d₀ e₀ d' e' (is ++ is') (js ++ js') := by
  obtain ⟨f, ss, t, rfl⟩ := h.same
  obtain ⟨f', ss', t', rfl⟩ := h'.same
  obtain ⟨k, hk, hk', tall⟩ := t.append t'
  refine ⟨⟨k, ss ++ ss', tall, ?_⟩, h.reaches.trans ?_⟩
  · rw [List.map_append, (t.congr hk).2, (t'.congr hk').2]
  · have hlater := h'.reaches.add ↑is
    rw [EngineState.add, EngineState.add, zero_add, Multiset.coe_add] at hlater
    rwa [Multiset.coe_eq_coe.mpr List.perm_append_comm]

theorem beside (h : Lockstep ⟨d, 0⟩ d e d' e' is js) (i : Instance) :
    EngineState.Reaches ⟨d, ↑[i]⟩ ⟨d', i ::ₘ (↑is + 0)⟩ := by
  have hreach := h.reaches.add ↑[i]
  rwa [EngineState.add, EngineState.add, zero_add, Multiset.coe_singleton, add_comm, Multiset.singleton_add,
    ← add_zero (is : Multiset Instance)] at hreach

theorem plant (hd : d.Tidy) (he : e.Tidy) (t : Tree) {i j : Instance} (hi : i.root = (d.graft t).2)
    (hbare : i.accessors = .empty) (hj : j = { i with root := (e.graft t).2 }) :
    Lockstep ⟨d, 0⟩ d e (d.graft t).1 (e.graft t).1 [i] [j] := by
  obtain ⟨f, s, rfl, hrenamed, -⟩ := Renamed.plant hd he t hi hbare hj
  have hstep : EngineState.Step ⟨d, 0⟩ [] ⟨(d.graft t).1, i ::ₘ 0⟩ := .plant t hi hbare
  exact ⟨⟨f, [s], hrenamed, rfl⟩, EngineState.Reaches.step hstep⟩

theorem discard (h : Lockstep ⟨d₀, 0⟩ d₀ e₀ d e is js) :
    Lockstep ⟨d₀, 0⟩ d₀ e₀ (Instance.removeRoots d is) (Instance.removeRoots e js) [] [] := by
  obtain ⟨f, ss, t, rfl⟩ := h.same
  have hts := t.left.roots
  rw [← List.append_nil ss, ← List.append_nil is] at t
  refine ⟨⟨f, [], t.discard hts, rfl⟩, h.reaches.trans ?_⟩
  have hstep : EngineState.Step ⟨d, ↑is + 0⟩ (d.freedAll is) ⟨Instance.removeRoots d is, 0⟩ := .discard is
  rw [add_zero] at hstep
  exact EngineState.Reaches.step hstep

end Lockstep

/-- What stays the same while each of two runs works on one of a family: where the first run began, its
document when the family was there first, the documents without the family, the whole families when the
runs began, the way to the one that is worked on, and what the views of its regions are like. -/
structure Setting where
  origin : EngineState
  first : Document
  base : Document
  base' : Document
  whole : Instance
  whole' : Instance
  way : List (String × Nat)
  focus : ∃ g, whole.descend? way = some g
  focus' : ∃ k, whole'.descend? way = some k
  admits : Blueprint → Prop

namespace Setting

variable {S : Setting}

theorem descend? (S : Setting) (g : Instance) :
    (S.whole.replaceAt g S.way).descend? S.way = some g := by
  obtain ⟨g₀, hg₀⟩ := S.focus
  exact Instance.descend?_replaceAt hg₀ g

theorem replaceAt (S : Setting) (g g' : Instance) :
    (S.whole.replaceAt g S.way).replaceAt g' S.way = S.whole.replaceAt g' S.way := by
  obtain ⟨g₀, hg₀⟩ := S.focus
  exact Instance.replaceAt_replaceAt hg₀ g g'

end Setting

/-- Two runs have come to `d` and `e`, and to `g` and `k`, which are the same. The first handle of
each watched pair is `g`'s own, and the second one is its counterpart. -/
structure LockstepAt (S : Setting) (watch : NodeId → NodeId → Prop) (d e : Document)
    (g k : Instance) : Prop where
  same : ∃ f s, Renamed S.base S.base' f [s] d e [S.whole.replaceAt g S.way] ∧
    S.whole'.replaceAt k S.way = (S.whole.replaceAt g S.way).rename f ∧
    ∀ x y, watch x y → d.Own g.stops x g.root ∧ y = f x
  views : ∀ n a view cs, g.accessors.get? n = some (.iterating a view cs) → S.admits view
  reaches : S.origin.Reaches ⟨d, ↑[S.whole.replaceAt g S.way]⟩
  transitions : Transitions S.base (S.first, S.whole) (d, S.whole.replaceAt g S.way)

namespace LockstepAt

variable {S : Setting} {watch watch' : NodeId → NodeId → Prop} {d e d' e' d₁ e₁ : Document}
  {g g' k k' : Instance} {name : String} {batch batch' : List Instance}

theorem exists_state (h : LockstepAt S watch d e g k) :
    ∃ f s i, i.descend? S.way = some g ∧ Renamed S.base S.base' f [s] d e [i] ∧ k = g.rename f ∧
      (∀ x y, watch x y → d.Own g.stops x g.root ∧ y = f x) ∧
      i = S.whole.replaceAt g S.way ∧ S.whole'.replaceAt k S.way = i.rename f := by
  obtain ⟨f, s, t, hwhole, hwatch⟩ := h.same
  refine ⟨f, s, _, S.descend? g, t, ?_, hwatch, rfl, hwhole⟩
  obtain ⟨k₀, hk₀⟩ := S.focus'
  have hsome := Instance.descend?_replaceAt hk₀ k
  rw [hwhole, Instance.descend?_rename, S.descend? g] at hsome
  exact (Option.some.inj hsome).symm

theorem moved {f f' : NodeId → NodeId} {s s' : Shape} {i : Instance} (h : LockstepAt S watch d e g k)
    (t : Renamed S.base S.base' f [s] d e [i]) (hi : i = S.whole.replaceAt g S.way)
    (hwhole : S.whole'.replaceAt k S.way = i.rename f) (hsame : ∀ x ∈ s.ids, f' x = f x)
    (t' : Renamed S.base S.base' f' [s'] d' e' [i.replaceAt g' S.way]) (hk : k' = g'.rename f')
    (hreaches : EngineState.Reaches ⟨d, ↑[i]⟩ ⟨d', ↑[i.replaceAt g' S.way]⟩)
    (htransition : Transition d i d' (i.replaceAt g' S.way))
    (hwatch : ∀ x y, watch' x y → d'.Own g'.stops x g'.root ∧ y = f' x)
    (views : ∀ n a view cs, g'.accessors.get? n = some (.iterating a view cs) → S.admits view) :
    LockstepAt S watch' d' e' g' k' := by
  subst hi hk
  rw [S.replaceAt g g'] at t' hreaches htransition
  refine ⟨⟨f', s', t', ?_, hwatch⟩, views, h.reaches.trans hreaches,
    h.transitions.tail ⟨⟨s, t.left⟩, htransition⟩⟩
  obtain ⟨k₀, hk₀⟩ := S.focus'
  have hall : ∀ x ∈ [s].flatMap Shape.ids, f' x = f x := by simpa using hsame
  obtain ⟨-, hcongr⟩ := t.congr hall
  rw [List.map_singleton, List.map_singleton, List.cons.injEq] at hcongr
  rw [← Instance.replaceAt_replaceAt hk₀ k, hwhole, ← hcongr.1, ← Instance.replaceAt_rename,
    S.replaceAt]

/-- A step that leaves the instance's own nodes to it. -/
theorem next (h : LockstepAt S watch d e g k)
    (step : ∀ f s i, i.descend? S.way = some g → Renamed S.base S.base' f [s] d e [i] →
      k = g.rename f → (∀ x y, watch x y → d.Own g.stops x g.root ∧ y = f x) →
      ∃ f' s', (∀ x ∈ s.ids, f' x = f x) ∧
        Renamed S.base S.base' f' [s'] d' e' [i.replaceAt g' S.way] ∧ k' = g'.rename f' ∧
        EngineState.Reaches ⟨d, ↑[i]⟩ ⟨d', ↑[i.replaceAt g' S.way]⟩ ∧
        Transition d i d' (i.replaceAt g' S.way) ∧
        ∀ x, d.Own g.stops x g.root → d'.Own g'.stops x g'.root)
    (views : ∀ n a view cs, g'.accessors.get? n = some (.iterating a view cs) → S.admits view) :
    LockstepAt S watch d' e' g' k' := by
  obtain ⟨f, s, i, hg, t, hk, hwatch, hi, hwhole⟩ := h.exists_state
  obtain ⟨f', s', hsame, t', hk', hreaches, htransition, hown⟩ := step f s i hg t hk hwatch
  refine h.moved t hi hwhole hsame t' hk' hreaches htransition (fun x y hxy => ?_) views
  obtain ⟨hx, hy⟩ := hwatch x y hxy
  exact ⟨hown x hx, hy.trans (hsame x (t.left.mem_ids_of_own hg hx)).symm⟩

theorem eq_rename (h : LockstepAt S watch d e g k) : ∃ f, k = g.rename f := by
  obtain ⟨f, _, _, -, -, hk, -⟩ := h.exists_state
  exact ⟨f, hk⟩

theorem own {x y : NodeId} (h : LockstepAt S watch d e g k) (hx : watch x y) : d.Own g.stops x g.root := by
  obtain ⟨f, s, t, -, hwatch⟩ := h.same
  exact (hwatch x y hx).1

theorem tidy (h : LockstepAt S watch d e g k) : d.Tidy ∧ e.Tidy := by
  obtain ⟨f, ss, t, -⟩ := h.same
  exact ⟨t.left.grown.tidy, t.right.grown.tidy⟩

theorem lockstep (h : LockstepAt S watch d e g k) : Lockstep S.origin S.base S.base' d e
    [S.whole.replaceAt g S.way] [S.whole'.replaceAt k S.way] := by
  obtain ⟨f, s, t, hwhole, -⟩ := h.same
  exact ⟨⟨f, [s], t, by rw [hwhole, List.map_singleton]⟩, h.reaches⟩

theorem tell (h : LockstepAt S watch d e g k) (hroot : g'.root = g.root)
    (haccessors : g'.accessors = g.accessors) (hk : ∀ f, k = g.rename f → k' = g'.rename f) :
    LockstepAt S watch d e g' k' := by
  have hstops := Instance.stops_congr haccessors
  refine h.next (fun f s i hg t hkf hwatch => ?_) ?_
  · have hstep : EngineState.Step ⟨d, i ::ₘ 0⟩ [] ⟨d, i.replaceAt g' S.way ::ₘ 0⟩ :=
      .tell hg hroot haccessors
    refine ⟨f, s, fun _ _ => rfl, t.tell hg hroot haccessors, hk f hkf, EngineState.Reaches.step hstep,
      .tell hg hroot haccessors, fun x hx => ?_⟩
    rwa [hstops, hroot]
  · rw [haccessors]
    exact h.views

theorem receive (h : LockstepAt S watch d e g k) (hook : Hook) :
    LockstepAt S watch d e (g.receive hook) (k.receive hook) :=
  h.tell rfl rfl fun f hk => by rw [hk, Instance.receive_rename]

theorem notify (h : LockstepAt S watch d e g k) (name : String) :
    LockstepAt S watch d e (g.notify name) (k.notify name) := h.receive _

theorem withValue (h : LockstepAt S watch d e g k) (name : String) (v : Json) :
    LockstepAt S watch d e (g.withValue name v) (k.withValue name v) :=
  h.tell rfl rfl fun f hk => by rw [hk, Instance.withValue_rename]

theorem write (h : LockstepAt S watch d e g k) {ls ls' : List BoundLocation}
    (hget : g.accessors.get? name = some (.bound ls))
    (hget' : k.accessors.get? name = some (.bound ls')) (values : Table Json) :
    LockstepAt S watch (Instance.writeLocations d name values ls)
      (Instance.writeLocations e name values ls') g k := by
  refine h.next (fun f s i hg t hkf hwatch => ?_) h.views
  have hls : ls' = ls.map (BoundLocation.rename f) := by
    rw [hkf, Instance.get?_rename, hget, Option.map_some, Accessor.rename] at hget'
    exact (Accessor.bound.inj (Option.some.inj hget')).symm
  have hlinks : ∀ x, (Instance.writeLocations d name values ls).links? x = d.links? x :=
    Instance.links?_writeLocations d ls
  have hstep : EngineState.Step ⟨d, i ::ₘ 0⟩ [] ⟨Instance.writeLocations d name values ls, i ::ₘ 0⟩ :=
    .write hg hget values
  rw [hls, Instance.replaceAt_self hg]
  refine ⟨f, s, fun _ _ => rfl, t.write hg hget values, hkf, EngineState.Reaches.step hstep,
    .write hg hget values, fun x hx => ?_⟩
  exact hx.of_links fun c p hlink hstop _ => ⟨(link_congr (hlinks c) (hlinks p)).mpr hlink, hstop⟩

theorem admits_withAccessor (h : LockstepAt S watch d e g k) {ac : Accessor Instance}
    (view : ∀ b v cs, ac = .iterating b v cs → S.admits v) {n : String} {b : NodeId} {v : Blueprint}
    {cs : List Instance}
    (hget : (g.withAccessor name ac).accessors.get? n = some (.iterating b v cs)) : S.admits v := by
  by_cases hn : n = name
  · subst hn
    rw [Instance.withAccessor, Table.get?_put_self] at hget
    exact view b v cs (Option.some.inj hget)
  · rw [Instance.withAccessor, Table.get?_put_of_ne _ _ hn] at hget
    exact h.views n b v cs hget

theorem renew (h : LockstepAt S watch d e g k) (built : Lockstep ⟨d, 0⟩ d e d₁ e₁ batch batch')
    {ac ac' : Accessor Instance} {a a' : NodeId} (name : String) (hbatch : ac.children = batch)
    (own : ∀ x, x = a ∨ x ∈ ac.handles → d.Own g.stops x g.root)
    (view : ∀ b v cs, ac = .iterating b v cs → b = a ∧ v.IsCompiled ∧ S.admits v)
    (counterpart : ∀ f, k = g.rename f → batch' = batch.map (Instance.rename f) →
      (∀ x y, watch x y → y = f x) → (batch' = [] ∨ a' = f a) ∧ ac' = ac.rename f (Instance.rename f)) :
    LockstepAt S watch (d₁.renewed (g.children name) batch a)
      (e₁.renewed (k.children name) batch' a') (g.withAccessor name ac)
      (k.withAccessor name ac') := by
  refine h.next (fun f s i hg t hkf hwatch => ?_) fun n b v cs hget => ?_
  · obtain ⟨f₁, ts, t₁, rfl⟩ := built.same
    obtain ⟨f', hf', hf₁, tall⟩ := t.append t₁
    have hsame : ∀ x ∈ s.ids, f' x = f x := by simpa using hf'
    have hids : ∀ x, d.Own g.stops x g.root → x ∈ s.ids := fun x hx => t.left.mem_ids_of_own hg hx
    have hk : k = g.rename f' := hkf.trans (t.rename_congr hg hsame).symm
    obtain ⟨ha, hac⟩ := counterpart f' hk (t₁.congr hf₁).2.symm
      fun x y hxy => by rw [(hwatch x y hxy).2, hsame x (hids x (hwatch x y hxy).1)]
    -- the batch leaves the instance's own nodes as they were
    have hlater : ∀ x, d.Own g.stops x g.root → d₁.Own g.stops x g.root := fun x hx =>
      hx.grown t₁.left.grown
    have hview : ∀ b v cs, ac = .iterating b v cs → b = a ∧ v.IsCompiled := fun b v cs he =>
      ⟨(view b v cs he).1, (view b v cs he).2.1⟩
    have hleft : Owned S.base d₁ (s :: (ts ++ [])) (i :: (batch ++ [])) := by simpa using tall.left
    have hroots : ts.map Shape.id = batch.map Instance.root := t₁.left.roots
    rw [← hbatch] at tall
    have hnew := tall.renew hg name (hlater a (own a (.inl rfl)))
      (fun x hx => hlater x (own x (.inr hx))) hview
    have hanchor : ∀ cs, batch.map (Instance.rename f₁) = cs →
        e₁.renewed (k.children name) cs a' = e₁.renewed (k.children name) cs (f' a) := by
      rintro cs rfl
      rcases ha with hnone | rfl
      · rw [hnone]
        rfl
      · rfl
    subst hbatch
    rw [← hk, Accessor.children_rename, (t₁.congr hf₁).2, ← hanchor _ rfl] at hnew
    refine ⟨f', _, hsame, hnew, ?_, ?_, .renew hg t₁.left name (own a (.inl rfl)), fun x hx => ?_⟩
    · rw [Instance.withAccessor_rename, ← hk, hac]
    · exact (built.beside i).trans (EngineState.Reaches.step (.renew hg name
        (hlater a (own a (.inl rfl))) (fun x hx => hlater x (own x (.inr hx))) hview))
    · exact hleft.own_renewed name hroots hg (hlater a (own a (.inl rfl))) rfl (hlater x hx)
  · exact h.admits_withAccessor (fun b v cs he => (view b v cs he).2.2) hget

theorem define (h : LockstepAt S watch d e g k) {a a' : Accessor Instance} (name : String)
    (childless : a.children = []) (own : ∀ x ∈ a.handles, d.Own g.stops x g.root)
    (view : ∀ b v cs, a = .iterating b v cs → v.IsCompiled ∧ S.admits v)
    (counterpart : ∀ f, (∀ x y, watch x y → y = f x) → a' = a.rename f (Instance.rename f)) :
    LockstepAt S watch (Instance.removeRoots d (g.children name))
      (Instance.removeRoots e (k.children name)) (g.withAccessor name (g.joined name a))
      (k.withAccessor name (k.joined name a')) := by
  obtain ⟨f, s, i, hg, t, hk, -⟩ := h.exists_state
  have hgs := ((t.left.embedded i List.mem_cons_self).descend? hg).1
  -- where a batch of none goes does not matter, so the root will do for a bound property
  obtain ⟨anchor, hanchor, hview⟩ : ∃ anchor, d.Own g.stops anchor g.root ∧
      ∀ b v cs, g.joined name a = .iterating b v cs → b = anchor := by
    cases hjoined : g.joined name a with
    | bound ls => exact ⟨g.root, .refl, fun b v cs e => by cases e⟩
    | iterating b v cs =>
      refine ⟨b, own b ?_, fun b' v' cs' e => (Accessor.iterating.inj e).1.symm⟩
      rw [Instance.eq_of_joined_eq_iterating hjoined]
      exact List.mem_cons_self
  change LockstepAt S watch (d.renewed (g.children name) [] anchor)
    (e.renewed (k.children name) [] k.root) _ _
  refine h.renew (Lockstep.nil h.tidy.1 h.tidy.2) name (Instance.children_joined childless) ?_ ?_ ?_
  · rintro x (rfl | hx)
    · exact hanchor
    · rcases Instance.mem_handles_joined hx with hx | ⟨b, hget, hx⟩
      · exact own x hx
      · exact hgs.own_of_get? hget x hx
  · intro b v cs hjoined
    exact ⟨hview b v cs hjoined, view b v cs (Instance.eq_of_joined_eq_iterating hjoined)⟩
  · intro f' hk' _ hwatch
    refine ⟨.inl rfl, ?_⟩
    rw [counterpart f' hwatch, hk', Instance.joined_rename]

theorem cleared (h : LockstepAt S watch d e g k) (name : String) {ac : Accessor Instance}
    {fresh : List NodeId} (childless : ac.children = [])
    (anchor : ∀ b view cs, ac = .iterating b view cs → b ∈ fresh) :
    Cleared [name] fresh d g (Instance.removeRoots d (g.children name)) (g.withAccessor name ac) := by
  obtain ⟨f, s, i, hg, t, -⟩ := h.exists_state
  exact t.left.cleared hg name childless anchor

theorem exists_decode (h : LockstepAt S watch d e g k) : ∃ f, (∀ x y, watch x y → y = f x) ∧
    ∀ x y path, watch x y → e.decode? y path = (d.decode? x path).map (Place.rename f) := by
  obtain ⟨f, s, i, hg, t, -, hwatch, -⟩ := h.exists_state
  refine ⟨f, fun x y hxy => (hwatch x y hxy).2, fun x y path hxy => ?_⟩
  obtain ⟨hx, rfl⟩ := hwatch x y hxy
  exact t.decode? (by simpa using t.left.mem_ids_of_own hg hx) path

theorem node?_removeRoots (h : LockstepAt S watch d e g k) (name : String) {x y : NodeId}
    (hx : watch x y) (hchildren : ∀ z ∈ d.children x, ∃ y, watch z y) :
    (Instance.removeRoots d (g.children name)).node? x = d.node? x := by
  obtain ⟨f, s, i, hg, t, -, hwatch, -⟩ := h.exists_state
  have hgs := (t.left.embedded i List.mem_cons_self).descend? hg
  rw [t.left.node?_removeRoots hg name ((hwatch x y hx).1.under.trans hgs.2) fun z hz =>
    hgs.1.own_not_under (t.left.rooted hgs.2) (hwatch x y hx).1
      (Instance.mem_generated_of_mem_children hz)]
  cases hn : d.node? x with
  | none => rfl
  | some n =>
    rw [children_of_node? hn] at hchildren
    rw [Option.map_some, List.filter_eq_self.mpr fun z hz => ?_]
    obtain ⟨y, hzy⟩ := hchildren z hz
    rw [Bool.not_eq_true', ← Bool.not_eq_true, List.contains_iff_mem]
    intro hmem
    obtain ⟨c, hc, rfl⟩ := List.mem_map.mp hmem
    exact hgs.1.own_not_under (t.left.rooted hgs.2) (hwatch _ y hzy).1
      (Instance.mem_generated_of_mem_children hc) .refl

theorem attach (h : LockstepAt S watch d e g k) (tree : Tree) :
    ∃ (c : Shape) (f : NodeId → NodeId), c.id = (d.graft tree).2 ∧ f c.id = (e.graft tree).2 ∧
      d.Copies (d.graft tree).1 c tree ∧
      Mirrors (d.graft tree).1 ((d.graft tree).1.append g.root (d.graft tree).2) id c.ids ∧
      LockstepAt S (fun x y => x ∈ c.ids ∧ y = f x) ((d.graft tree).1.append g.root (d.graft tree).2)
        ((e.graft tree).1.append k.root (e.graft tree).2) g k := by
  obtain ⟨f, s, i, hg, t, rfl, -, hi, hwhole⟩ := h.exists_state
  obtain ⟨f', c, hsame, t', hid, hid', hc, -⟩ := t.attach hg tree
  have hmirrors := t.left.mirrors_attach hg hc
  have hown := (t.left.own_attach hg hc).2
  rw [hid] at hmirrors hown
  have hstep : EngineState.Step ⟨d, i ::ₘ 0⟩ [] ⟨_, i ::ₘ 0⟩ := .attach hg tree
  rw [← Instance.replaceAt_self hg] at t'
  refine ⟨c, f', hid, hid', hc, hmirrors, h.moved t hi hwhole hsame t'
    (t.rename_congr hg hsame).symm ?_ ?_ (fun x y hxy => ?_) h.views⟩
  · rw [Instance.replaceAt_self hg]
    exact EngineState.Reaches.step hstep
  · rw [Instance.replaceAt_self hg]
    exact .attach hg tree
  · exact ⟨hown x hxy.1, hxy.2⟩

end LockstepAt

end LiveMarkup
