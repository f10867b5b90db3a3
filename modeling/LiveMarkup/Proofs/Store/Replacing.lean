import LiveMarkup.Proofs.Store.Batch
import LiveMarkup.Proofs.Store.Soundness

/-!
# What is replaced

An array that an iterating property takes replaces just the instances that were kept for it, and for
those properties below it that take arrays of their own. An extension takes the instances of the
properties that it defines anew from their former anchors.
-/

namespace LiveMarkup

open Document

theorem map_fst_filterMap {α β : Type} (key : α → String) (value : α → Option β) (xs : List α) :
    (xs.filterMap fun x => (value x).map fun v => (key x, v)).map (·.1) =
      (xs.filter fun x => (value x).isSome).map key := by
  induction xs with
  | nil => rfl
  | cons x xs ih =>
    cases hx : value x with
    | none => simpa [hx] using ih
    | some v => simpa [hx] using ih

namespace Instance

variable {i : Instance} {name : String} {v : Json}

theorem afterStart?_self (cs : List Char) (c : Char) : afterStart? (cs ++ [c]) cs = none := by
  induction cs with
  | nil => rfl
  | cons a cs ih => rw [List.cons_append, afterStart?, if_pos rfl, ih]

theorem assignAllWith_cons_of_ok {build : Build} {s : Stage} {rest : List (String × Json)}
    (h : (assignAllWith build s i ((name, v) :: rest)).error = none) :
    (assignWith build s i name v).error = none ∧ assignAllWith build s i ((name, v) :: rest) =
      assignAllWith build (assignWith build s i name v).stage (assignWith build s i name v).self
        rest := by
  rw [assignAllWith] at h ⊢
  generalize assignWith build s i name v = o at h ⊢
  obtain ⟨s₁, i₁, _ | e⟩ := o
  · exact ⟨rfl, rfl⟩
  · cases h

/-- The properties below a property. -/
def namesBelow (i : Instance) (name : String) : List String :=
  i.accessors.names.filter fun key => (pathBelow? name key).isSome

theorem map_fst_dependents (i : Instance) (name : String) (v : Json) :
    (i.dependents name v).map (·.1) = i.namesBelow name := by
  have hnames := map_fst_filterMap id (fun key => (pathBelow? name key).map fun path =>
    (v.resolve? path).getD .null) i.accessors.names
  simp only [Option.map_map, Function.comp_def, Option.isSome_map, id] at hnames
  rw [dependents, hnames, List.map_id, namesBelow]

theorem not_mem_namesBelow (i : Instance) (name : String) : name ∉ i.namesBelow name := by
  intro hmem
  have hsome := (List.mem_filter.mp hmem).2
  rw [pathBelow?, afterStart?_self] at hsome
  cases hsome

theorem nodup_dependents (hn : i.accessors.names.Nodup) (name : String) (v : Json) :
    (((name, v) :: i.dependents name v).map (·.1)).Nodup := by
  rw [List.map_cons, List.nodup_cons, map_fst_dependents]
  exact ⟨i.not_mem_namesBelow name, hn.filter _⟩

/-- The properties whose instances are renewed at a node when a property, and those below it, take a
value. -/
def renewedBySet (i : Instance) (x : NodeId) (name : String) (v : Json) : List String :=
  i.renewedAt x ((name, v) :: i.dependents name v)

/-- What a successful set of an iterating property to the items of an array comes to. -/
structure Replaces (s : Stage) (i : Instance) (name : String) (items : List Json) (view : Blueprint)
    (a : NodeId) : Prop where
  /-- There is an instance for each item, in order. -/
  rendered : List.Forall₂ (fun item c => LooksAlone i.registry view item
      (i.set s name (.array items)).stage.document c) items
    ((i.set s name (.array items)).self.children name)
  /-- The nodes of the former ones are freed before the properties below take their values. -/
  freed : ∀ c ∈ i.children name, ∀ x ∈ s.document.descendants c.root,
    (i.assign s name (.array items)).stage.document.contains x = false
  replaced : (i.assign s name (.array items)).stage.document.children a =
    (s.document.children a).filter (· ∉ i.rootsOf [name]) ++
      (i.assign s name (.array items)).self.rootsOf [name]
  /-- The properties below may share the anchor. -/
  anchored : (i.set s name (.array items)).stage.document.children a =
    (s.document.children a).filter (· ∉ i.rootsOf (i.renewedBySet a name (.array items))) ++
      (i.set s name (.array items)).self.rootsOf (i.renewedBySet a name (.array items))

/-- What an extension by a view comes to at the anchor `a` of a property. -/
structure Abandons (s : Stage) (i : Instance) (view : Blueprint) (a : NodeId) : Prop where
  children : (i.extend s view).1.stage.document.children a =
    (s.document.children a).filter (· ∉ i.rootsOf (view.exposures.map Exposure.name)) ++
      if a = i.root then [(i.extend s view).2] else []
  /-- The properties that the view has are not anchored there any more. -/
  abandoned : ∀ n ∈ view.exposures.map Exposure.name, (i.extend s view).1.self.anchor? n ≠ some a ∧
    ∀ c ∈ (i.extend s view).1.self.children n,
      c.root ∉ (i.extend s view).1.stage.document.children a

end Instance

theorem Blueprint.IsCompiled.nodup_exposures {b : Blueprint} (h : b.IsCompiled) :
    (b.exposures.map Exposure.name).Nodup := by
  obtain ⟨c, hc, -⟩ := tidy_empty.graft b.skeleton
  obtain ⟨ctx, l, ps, hv⟩ := h.exists_isView
  obtain ⟨ss, -, rfl, hexhibits⟩ := hv.exists_exhibits hc
  rw [← Exposure.Resolves.map_fst (Instance.exposures_resolve hv hexhibits)]
  exact Instance.nodup_names_accessorsAt hv _

theorem Instance.heldValues_eq (i : Instance) (b : Blueprint) : i.heldValues b =
    b.exposures.filterMap fun e => (i.get? e.name).map fun v => (e.name, v) :=
  List.filterMap_congr fun e _ => by cases e <;> rfl

theorem Instance.names_heldValues_sublist (i : Instance) (b : Blueprint) :
    ((i.heldValues b).map (·.1)).Sublist (b.exposures.map Exposure.name) := by
  rw [i.heldValues_eq, map_fst_filterMap]
  exact List.filter_sublist.map Exposure.name

theorem Instance.nodup_heldValues (i : Instance) {b : Blueprint} (h : b.IsCompiled) :
    ((i.heldValues b).map (·.1)).Nodup ∧
      (i.heldValues b).map (·.1) ⊆ b.exposures.map Exposure.name :=
  ⟨(i.names_heldValues_sublist b).nodup h.nodup_exposures, (i.names_heldValues_sublist b).subset⟩

namespace LockstepAt

variable {S : Setting} {watch : NodeId → NodeId → Prop} {s t : Stage} {g k : Instance}

theorem replaces (admits : ∀ view, S.admits view → view.IsCompiled)
    (h : LockstepAt S watch s.document t.document g k) {name : String} {a : NodeId} {view : Blueprint}
    {former : List Instance} (hget : g.accessors.get? name = some (.iterating a view former))
    {items : List Json} (success : (g.set s name (.array items)).error = none) :
    g.Replaces s name items view a := by
  obtain ⟨_, _, i, hg, renamed, -⟩ := h.exists_state
  obtain ⟨hgs, hgi⟩ := (renamed.left.embedded i List.mem_cons_self).descend? hg
  have hown : s.document.Own g.stops a g.root := hgs.own_of_get? hget a List.mem_cons_self
  have hnodup := Instance.nodup_dependents hgs.names name (.array items)
  -- the property takes the array
  obtain ⟨hok, hset⟩ := Instance.assignAllWith_cons_of_ok success
  have htaken : Taken g.registry s g name (.array items) (g.assign s name (.array items)) :=
    renamed.left.taken hg g.registry name (.array items)
  obtain ⟨hbatch, hfreed⟩ := htaken.batch renamed.left hg hget hok
  have hreplaced := htaken.children renamed.left hg hown hok
  have hrenews : g.renewedAt a [(name, .array items)] = [name] := by
    have hat : g.renewsAt name (.array items) = some a := Instance.anchor?_eq_some.mpr ⟨_, _, hget⟩
    rw [Instance.renewedAt, List.filter_cons, hat]
    simp
  rw [hrenews] at hreplaced
  -- then those below it take what is in it for them
  have hone := (h.assign (fun view hview => Instance.build_alike g.registry (admits view hview))
    name (.array items)).lockstepAt
  have hkept := hone.kept_assignAll g.registry admits (g.dependents name (.array items))
  rw [← hset] at hkept
  obtain ⟨hchildren, hretains⟩ := hkept.others name (List.nodup_cons.mp hnodup).1
  refine ⟨?_, fun c hc x hx => ?_, hreplaced, ?_⟩
  · change List.Forall₂ _ items ((Instance.assignAllWith _ s g _).self.children name)
    rw [hchildren]
    exact Instance.LooksAlone.retainedAll hbatch hretains
  · have hup := (hgs.under_root (Instance.mem_generated_of_mem_children hc)).trans hgi
    rw [renamed.left.mem_descendants_iff List.mem_cons_self hup] at hx
    rw [contains, hfreed c hc x hx]
    rfl
  · obtain ⟨taken, rest, hvalues, hrest, hanchored⟩ :=
      h.children_assignAll g.registry admits _ hnodup hown
    obtain rfl := hrest success
    rw [List.append_nil] at hvalues
    rw [← hvalues] at hanchored
    exact hanchored

theorem abandons (admits : S.admits = Blueprint.IsCompiled)
    (h : LockstepAt S watch s.document t.document g k) {name : String} {a : NodeId} {view : Blueprint}
    {former : List Instance} (hget : g.accessors.get? name = some (.iterating a view former))
    {more : Blueprint} (compiled : more.IsCompiled) : g.Abandons s more a := by
  have hadmits : ∀ view, S.admits view → view.IsCompiled := fun view hview => admits ▸ hview
  obtain ⟨_, _, i, hg, renamed, -⟩ := h.exists_state
  have hgs := ((renamed.left.embedded i List.mem_cons_self).descend? hg).1
  have hown : s.document.Own g.stops a g.root := hgs.own_of_get? hget a List.mem_cons_self
  obtain ⟨c, f, hid, hid', hinstalled, hextended⟩ := h.install compiled fun name region hregion =>
    admits ▸ compiled.region hregion
  obtain ⟨hnodup, hsub⟩ := (g.install s more).2.nodup_heldValues compiled
  have hfresh := hextended.fresh a hown
  have hnone : ∀ values, (values.map (·.1)) ⊆ more.exposures.map Exposure.name →
      (g.install s more).2.renewedAt a values = [] := by
    intro values hvalues
    refine List.eq_nil_iff_forall_not_mem.mpr fun n hn => ?_
    obtain ⟨hmem, hanchor⟩ := Instance.mem_renewedAt hn
    obtain ⟨v, cs, hv⟩ := Instance.anchor?_eq_some.mp hanchor
    exact hfresh (hextended.anchored n (hvalues hmem) a v cs hv)
  have hend := (hinstalled.assignAll (fun view hview => Instance.build_alike
    (g.install s more).2.registry (hadmits view hview)) ((g.install s more).2.heldValues more)).lockstepAt
  have hkept := hinstalled.kept_assignAll (g.install s more).2.registry hadmits
    ((g.install s more).2.heldValues more)
  obtain ⟨taken, rest, hvalues, -, hchildren⟩ := hinstalled.children_assignAll
    (g.install s more).2.registry hadmits _ hnodup (hextended.own a hown)
  have htaken : taken.map (·.1) ⊆ more.exposures.map Exposure.name := fun n hn => by
    refine hsub ?_
    rw [hvalues, List.map_append]
    exact List.mem_append_left _ hn
  rw [hnone taken htaken, hextended.children a hown] at hchildren
  have hextend := (congrArg Prod.fst (g.extend_eq s more)).symm
  dsimp only at hextend
  rw [hextend] at hkept hend hchildren
  have hmoved : ∀ n ∈ more.exposures.map Exposure.name, (g.extend s more).1.self.anchor? n ≠ some a := by
    intro n hn hanchor
    rw [hkept.anchors] at hanchor
    obtain ⟨v, cs, hv⟩ := Instance.anchor?_eq_some.mp hanchor
    exact hfresh (hextended.anchored n hn a v cs hv)
  refine ⟨?_, fun n hn => ⟨hmoved n hn, fun z hz hmem => ?_⟩⟩
  · rw [hchildren, Instance.filter_rootsOf_nil, hid]
    exact List.append_nil _
  · obtain ⟨b, v, cs, hb, rfl⟩ := Instance.exists_get?_of_mem_children hz
    obtain ⟨_, _, i', hg', renamed', -⟩ := hend.exists_state
    have hup := ((renamed'.left.embedded i' List.mem_cons_self).descend? hg').2
    have hlast := (hkept.own a (hextended.own a hown)).under.trans hup
    obtain rfl := (renamed'.left.anchor_unique hg' hb hz hlast).mp hmem
    exact hmoved n hn (Instance.anchor?_eq_some.mpr ⟨_, _, hb⟩)

end LockstepAt

namespace Store

/-- Whatever was done with instances of a document, when one of them sets a property that iterates then
the array replaces what was kept for the property. No other node of the instance has any of that below
it, and none is left where the property was before an extension. -/
theorem replaces_run {d : Document} (tidy : d.Tidy) {acts : List Act}
    (compiled : ∀ a ∈ acts, a.Compiled) {resident : String} {way : List (String × Nat)} {i : Instance}
    (found : (run ⟨d, .empty⟩ acts).find? resident way = some i) (log : Log) {name : String}
    {a : NodeId} {view : Blueprint} {former : List Instance}
    (iterates : i.accessors.get? name = some (.iterating a view former)) :
    let s : Stage := ⟨(run ⟨d, .empty⟩ acts).document, log⟩
    (∀ items, (i.set s name (.array items)).error = none → i.Replaces s name items view a) ∧
      (∀ c ∈ former, ∀ x ∈ s.document.descendants i.root,
        (c.root ∈ s.document.children x ↔ x = a)) ∧
      ∀ more : Blueprint, more.IsCompiled → i.Abandons s more a := by
  intro s
  obtain ⟨hshared, -⟩ := (Shared.empty tidy).run compiled
  rw [find?] at found
  obtain ⟨j, hj, hi⟩ := Option.bind_eq_some_iff.mp found
  cases hshared.matched resident with
  | absent left => cases left.symm.trans hj
  | @present j' base base' f sh left right renamed =>
    obtain rfl := Option.some.inj (left.symm.trans hj)
    have hlock := LockstepAt.start renamed hi
    refine ⟨fun items success => ?_, fun c hc x hx => ?_, fun more hmore => ?_⟩
    · exact hlock.replaces (s := s) (t := ⟨_, []⟩) (fun _ hview => hview) iterates success
    · have hup := ((renamed.left.embedded _ List.mem_cons_self).descend? hi).2
      rw [renamed.left.mem_descendants_iff List.mem_cons_self hup] at hx
      exact renamed.left.anchor_unique hi iterates hc (hx.trans hup)
    · exact hlock.abandons (s := s) (t := ⟨_, []⟩) rfl iterates hmore

theorem exists_compiled_of_check (text : String) (check : Blueprint → Bool)
    (h : (Blueprint.compile .standard text none).1.toOption.map check = some true) :
    ∃ b log, Blueprint.compile .standard text none = (.ok b, log) ∧ b.IsCompiled ∧ check b = true := by
  rcases hcompile : Blueprint.compile .standard text none with ⟨e | b, log⟩
  · rw [hcompile] at h
    cases h
  · rw [hcompile] at h
    exact ⟨b, log, rfl, ⟨_, _, _, _, log, hcompile, .self⟩, Option.some.inj h⟩

/-- Whether something holds of an instance of a run, and of the anchor of one of its properties. The
run is one with the view that a text compiles to. -/
def probe (d : Document) (text : String) (acts : Blueprint → List Act) (resident name : String)
    (check : Stage → Instance → NodeId → Bool) : Option Bool :=
  (Blueprint.compile .standard text none).1.toOption.bind fun b =>
    ((run ⟨d, .empty⟩ (acts b)).find? resident []).bind fun i =>
      (i.anchor? name).map fun a => check ⟨(run ⟨d, .empty⟩ (acts b)).document, []⟩ i a

theorem exists_of_probe (d : Document) (text : String) (acts : Blueprint → List Act)
    (resident name : String) (check : Stage → Instance → NodeId → Bool)
    (h : probe d text acts resident name check = some true) :
    ∃ b log i a view former, Blueprint.compile .standard text none = (.ok b, log) ∧ b.IsCompiled ∧
      (run ⟨d, .empty⟩ (acts b)).find? resident [] = some i ∧
      i.accessors.get? name = some (.iterating a view former) ∧
      check ⟨(run ⟨d, .empty⟩ (acts b)).document, []⟩ i a = true := by
  obtain ⟨b, hb, h⟩ := Option.bind_eq_some_iff.mp h
  obtain ⟨i, hi, h⟩ := Option.bind_eq_some_iff.mp h
  obtain ⟨a, ha, hcheck⟩ := Option.map_eq_some_iff.mp h
  obtain ⟨view, former, hget⟩ := Instance.anchor?_eq_some.mp ha
  rcases hcompile : Blueprint.compile .standard text none with ⟨e | b', log⟩
  · rw [hcompile] at hb
    cases hb
  · rw [hcompile] at hb
    obtain rfl := Option.some.inj hb
    exact ⟨_, log, i, a, view, former, rfl, ⟨_, _, _, _, log, hcompile, .self⟩, hi, hget, hcheck⟩

def twoRows : List Json := [.object [("name", .string "e")], .null]

/-- A list whose rows were set before gets two others, or is extended by one more list. -/
theorem replaces_run_interleavedActs :
    ∃ b log i a view former, Blueprint.compile .standard listText none = (.ok b, log) ∧
      (run ⟨emptiedDocument, .empty⟩ (interleavedActs b)).find? "left" [] = some i ∧
      i.accessors.get? "rows" = some (.iterating a view former) ∧ (i.children "rows").length = 1 ∧
      i.Replaces ⟨(run ⟨emptiedDocument, .empty⟩ (interleavedActs b)).document, []⟩ "rows" twoRows view a ∧
      i.Abandons ⟨(run ⟨emptiedDocument, .empty⟩ (interleavedActs b)).document, []⟩ b a := by
  obtain ⟨b, log, i, a, view, former, hcompile, hb, found, iterates, hcheck⟩ :=
    exists_of_probe emptiedDocument listText interleavedActs "left" "rows" (fun s i _ =>
      (i.children "rows").length == 1 && (i.set s "rows" (.array twoRows)).error.isNone)
      (by decide +kernel)
  rw [Bool.and_eq_true, beq_iff_eq, Option.isNone_iff_eq_none] at hcheck
  obtain ⟨s, hcopies, -⟩ := tidy_empty.graft (.node (.element "p") [])
  obtain ⟨hreplaces, -, habandons⟩ := replaces_run (hcopies.tidy.remove 0) (compiled_interleavedActs hb) found
    [] iterates
  exact ⟨b, log, i, a, view, former, hcompile, found, iterates, hcheck.1,
    hreplaces twoRows hcheck.2, habandons b hb⟩

/-- A list with two regions, of which the second one takes what is first in the value of the other. -/
def nestedText : String :=
  "<ul><li data-repeat=\"items\">x</li><li data-repeat=\"items.0\">y</li></ul>"

/-- The anchor has more children than the former ones without those that were kept for the property
and those that are kept for it now. -/
theorem children_set_nestedText :
    ∃ b log i a view former, Blueprint.compile .standard nestedText none = (.ok b, log) ∧
      (run .empty [.place "list" .standard b none none]).find? "list" [] = some i ∧
      i.accessors.get? "items" = some (.iterating a view former) ∧
      let s : Stage := ⟨(run .empty [.place "list" .standard b none none]).document, []⟩
      let o := i.set s "items" (.array [.array [.natural 1, .natural 2]])
      o.error = none ∧ o.stage.document.children a ≠
        (s.document.children a).filter (· ∉ i.rootsOf ["items"]) ++ o.self.rootsOf ["items"] := by
  obtain ⟨b, log, i, a, view, former, hcompile, -, found, iterates, hcheck⟩ :=
    exists_of_probe .empty nestedText (fun b => [.place "list" .standard b none none]) "list" "items"
      (fun s i a =>
        let o := i.set s "items" (.array [.array [.natural 1, .natural 2]])
        o.error.isNone && decide (o.stage.document.children a ≠
          (s.document.children a).filter (· ∉ i.rootsOf ["items"]) ++ o.self.rootsOf ["items"]))
      (by decide +kernel)
  rw [Bool.and_eq_true, Option.isNone_iff_eq_none, decide_eq_true_eq] at hcheck
  exact ⟨b, log, i, a, view, former, hcompile, found, iterates, hcheck⟩

end Store

end LiveMarkup
