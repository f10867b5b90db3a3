import LiveMarkup.Proofs.Store.Replacing
import LiveMarkup.Proofs.Picture.Orders
import LiveMarkup.Proofs.Picture.Repetition

namespace LiveMarkup

open CompileContext Document Site

namespace Instance

variable {registry : Registry} {build : Build} {s : Stage} {i j : Instance} {data v : Json}
  {names : List String} {name n : String} {values : List (String × Json)}

/-- The names that the data has values for, with the values. -/
def resolved (data : Json) (names : List String) : List (String × Json) :=
  names.filterMap fun n => (data.resolve? n).map fun v => (n, v)

theorem mem_resolved {e : String × Json} (h : e ∈ resolved data names) :
    e.1 ∈ names ∧ data.resolve? e.1 = some e.2 := by
  obtain ⟨n, hn, hvalue⟩ := List.mem_filterMap.mp h
  obtain ⟨v, hv, rfl⟩ := Option.map_eq_some_iff.mp hvalue
  exact ⟨hn, hv⟩

theorem takeAllWith_of_none (h : data.resolve? name = none) (build : Build) (s : Stage) (i : Instance)
    (names : List String) :
    takeAllWith build data s i (name :: names) = takeAllWith build data s i names := by
  rw [takeAllWith, h]

theorem resolved_of_none (h : data.resolve? name = none) (names : List String) :
    resolved data (name :: names) = resolved data names := by
  rw [resolved, List.filterMap_cons, h]
  rfl

theorem exists_takeAllWith_of_some (h : data.resolve? name = some v) (build : Build) (s : Stage)
    (i : Instance) (names : List String) :
    ∃ s', s'.document = (assignWith build s i name v).stage.document ∧
      takeAllWith build data s i (name :: names) =
        takeAllWith build data s' (assignWith build s i name v).self names := by
  rw [takeAllWith, h]
  dsimp only
  rcases assignWith build s i name v with ⟨s', i', _ | e⟩
  · exact ⟨s', rfl, rfl⟩
  · exact ⟨s'.say _, rfl, rfl⟩

theorem resolved_of_some (h : data.resolve? name = some v) (names : List String) :
    resolved data (name :: names) = (name, v) :: resolved data names := by
  rw [resolved, List.filterMap_cons, h]
  rfl

theorem confined_takeAllWith (build : Build) (data : Json) (s : Stage) (i : Instance)
    (names : List String) : Confined (resolved data names) i (takeAllWith build data s i names).2 := by
  induction names generalizing s i with
  | nil => exact .refl i
  | cons name names ih =>
    cases hv : data.resolve? name with
    | none =>
      rw [takeAllWith_of_none hv, resolved_of_none hv]
      exact ih s i
    | some v =>
      obtain ⟨s', -, hrest⟩ := exists_takeAllWith_of_some hv build s i names
      rw [hrest, resolved_of_some hv]
      exact (confined_assignWith build s i name v).trans (ih s' _)

/-! ### How many instances there are -/

theorem length_of_buildAll {view : Blueprint} {s s' : Stage} {items : List Json}
    {done batch : List Instance} (h : buildAll build view s items done = (s', .ok batch)) :
    batch.length = done.length + items.length := by
  induction items generalizing s done with
  | nil =>
    obtain ⟨-, hbatch⟩ := Prod.mk.inj h
    rw [← Except.ok.inj hbatch]
    rfl
  | cons item items ih =>
    rw [buildAll] at h
    rcases hbuild : build s view item with ⟨s₁, e | i⟩
    · rw [hbuild] at h
      cases (Prod.mk.inj h).2
    · rw [hbuild] at h
      rw [ih h, List.length_append, List.length_singleton, List.length_cons]
      omega

/-- How many instances a property has after it takes a value, if the value changes that. -/
def count? (i : Instance) (name : String) (v : Json) : Option Nat :=
  match i.anchor? name, v, i.failure? name v with
  | some _, .array items, none => some items.length
  | _, _, _ => none

theorem Confined.anchor? (h : Confined values i j) (name : String) : j.anchor? name = i.anchor? name := by
  have hget := h.get?_emptied name
  unfold Instance.anchor?
  rcases hj : j.accessors.get? name with _ | ⟨ls⟩ | ⟨a, view, cs⟩ <;>
    rcases hi : i.accessors.get? name with _ | ⟨ls'⟩ | ⟨a', view', cs'⟩ <;>
      simp_all [Accessor.emptied]

theorem Confined.count? (h : Confined values i j) (name : String) (v : Json) :
    j.count? name v = i.count? name v := by
  unfold Instance.count?
  rw [h.anchor?, h.failure?]

theorem length_children_assign_self (s : Stage) (i : Instance) (name : String) (v : Json) :
    ((i.assign s name v).self.children name).length =
      (i.count? name v).getD (i.children name).length := by
  have herror := error_assign s i name v
  unfold count? anchor?
  rw [← herror, assign, assignWith]
  cases hget : i.accessors.get? name with
  | none => rfl
  | some accessor =>
    cases accessor with
    | bound ls => rfl
    | iterating a view former =>
      cases v with
      | array items =>
        dsimp only
        rw [assignItems]
        rcases hall : buildAll (Instance.build i.registry) view s items [] with ⟨s', e | batch⟩
        · rfl
        · have hlength := length_of_buildAll hall
          rw [children_of_get? (Table.get?_put_self _ _ _)]
          simpa [Accessor.children] using hlength
      | _ => rfl

theorem length_children_assign (s : Stage) (i : Instance) (name : String) (v : Json) (n : String) :
    ((i.assign s name v).self.children n).length =
      (if n = name then i.count? n v else none).getD (i.children n).length := by
  split
  · rename_i hn
    subst hn
    exact length_children_assign_self s i n v
  · rename_i hn
    rw [children_eq, children_eq, assign,
      (confined_assignWith _ s i name v).others n (by simpa using hn)]
    rfl

def census (i : Instance) (data : Json) (n : String) : Nat :=
  ((data.resolve? n).bind (i.count? n)).getD (i.children n).length

theorem length_children_takeAll (hregistry : i.registry = registry) (data : Json) (s : Stage)
    (names : List String) (n : String) :
    ((takeAllWith (Instance.build registry) data s i names).2.children n).length =
      if n ∈ names then i.census data n else (i.children n).length := by
  induction names generalizing s i with
  | nil => rfl
  | cons name names ih =>
    cases hv : data.resolve? name with
    | none =>
      rw [takeAllWith_of_none hv, ih hregistry, census]
      by_cases hn : n = name
      · simp [hn, hv]
      · simp [hn]
    | some v =>
      subst hregistry
      obtain ⟨s', -, hrest⟩ := exists_takeAllWith_of_some hv (Instance.build i.registry) s i names
      have hconfined := confined_assignWith (Instance.build i.registry) s i name v
      have hlength := length_children_assign s i name v n
      have hcount := hconfined.count? n
      rw [assign] at hlength
      rw [hrest, ih hconfined.registry, census, census, funext hcount, hlength]
      by_cases hn : n = name
      · subst hn
        rw [hv, Option.bind_some]
        cases i.count? n v <;> simp
      · simp [hn]

theorem confined_configure (s : Stage) (i : Instance) (data : Json) :
    ∃ j values, Confined values i j ∧ (i.configure s data).2 = j.receive (.configure data) := by
  rw [configure, configureWith]
  by_cases hnull : data.isNull = true
  · rw [if_pos hnull]
    exact ⟨i, [], .refl i, rfl⟩
  · rw [if_neg hnull]
    exact ⟨_, _, confined_takeAllWith _ data s i _, rfl⟩

theorem length_children_configure (s : Stage) (i : Instance) (data : Json) (n : String) :
    ((i.configure s data).2.children n).length =
      if data.isNull = true then (i.children n).length else i.census data n := by
  rw [configure, configureWith]
  by_cases hnull : data.isNull = true
  · rw [if_pos hnull, if_pos hnull]
    rfl
  · rw [if_neg hnull, if_neg hnull]
    refine (length_children_takeAll rfl data s _ n).trans ?_
    split
    · rfl
    · rename_i hn
      have hanchor : i.anchor? n = none := by
        rw [anchor?, Table.get?_eq_none_iff.mpr hn]
      have hcount : i.count? n = fun _ => none := funext fun v => by
        unfold count?
        rw [hanchor]
      rw [census, hcount]
      cases data.resolve? n <;> rfl

theorem length_children_configure_twice (s : Stage) (i : Instance) (data : Json) (n : String) :
    ((Call.run (s, i) [.configure data, .configure data]).2.children n).length =
      ((Call.run (s, i) [.configure data]).2.children n).length := by
  change (((i.configure s data).2.configure (i.configure s data).1 data).2.children n).length =
    ((i.configure s data).2.children n).length
  rw [length_children_configure, length_children_configure]
  split
  · rfl
  · rename_i hnull
    have hfirst := length_children_configure s i data n
    rw [if_neg hnull] at hfirst
    obtain ⟨j, values, hconfined, hj⟩ := confined_configure s i data
    have hcount : (i.configure s data).2.count? n = i.count? n := by
      rw [hj]
      exact funext (hconfined.count? n)
    rw [census, hcount, hfirst, census]
    cases (data.resolve? n).bind (i.count? n) <;> rfl

/-! ### What is shown -/

/-- None of the texts that are written when the data is taken reads a property that iterates and whose
value shows otherwise once it has taken its own. -/
def Steady (s : Stage) (i : Instance) (data : Json) : Prop :=
  ∀ n ∈ i.accessors.names, (data.resolve? n).isSome = true → ∀ r ∈ i.locations n,
    ∀ m ∈ r.expression.reads n, i.anchor? m = none ∨
      valueText (i.configure s data).2.values m = valueText i.values m

instance (s : Stage) (i : Instance) (data : Json) : Decidable (i.Steady s data) :=
  inferInstanceAs (Decidable (∀ n ∈ i.accessors.names, _))

variable {d₀ d : Document} {as : List (String × Accessor Instance)} {own : Shape} {p : Picture}
  {grow : Blueprint → Json → Option Tree}

def takings (grow : Blueprint → Json → Option Tree) (as : List (String × Accessor Instance))
    (data : Json) : List Change :=
  if data.isNull then [] else (resolved data (as.map (·.1))).map fun e => changeOf grow as e.1 e.2

theorem PictureOf.takeAll (hb : ∀ n a view, (n, .iterating a view []) ∈ as →
      build.Grows view (grow view)) (data : Json) (names : List String) {s : Stage}
    (h : PictureOf d₀ as own s.document i p) :
    PictureOf d₀ as own (takeAllWith build data s i names).1.document
      (takeAllWith build data s i names).2
      (Change.applyAll p ((resolved data names).map fun e => changeOf grow as e.1 e.2)) := by
  induction names generalizing s i p with
  | nil => exact h
  | cons name names ih =>
    cases hv : data.resolve? name with
    | none =>
      rw [takeAllWith_of_none hv, resolved_of_none hv]
      exact ih h
    | some v =>
      obtain ⟨s', hdocument, hrest⟩ := exists_takeAllWith_of_some hv build s i names
      rw [hrest, resolved_of_some hv]
      have hone := (h.assign hb name v).1
      rw [← hdocument] at hone
      exact ih hone

theorem PictureOf.configure (h : PictureOf d₀ as own s.document i p)
    (compiled : ∀ n a view, (n, .iterating a view []) ∈ as → view.IsCompiled) (data : Json) :
    PictureOf d₀ as own (i.configure s data).1.document (i.configure s data).2
      (Change.applyAll p (takings (alone i.registry) as data)) := by
  rw [Instance.configure, configureWith, takings, h.names]
  by_cases hnull : data.isNull = true
  · rw [if_pos hnull, if_pos hnull]
    exact h.receive _
  · rw [if_neg hnull, if_neg hnull]
    exact (h.takeAll (fun n a view hmem => build_grows i.registry (compiled n a view hmem)) data
      _).receive _

theorem exists_of_mem_takings {c : Change} (h : c ∈ takings grow as data) :
    ∃ n v, n ∈ as.map (·.1) ∧ data.resolve? n = some v ∧ c = changeOf grow as n v := by
  rw [takings] at h
  split at h
  · cases h
  · obtain ⟨e, he, rfl⟩ := List.mem_map.mp h
    obtain ⟨hn, hv⟩ := mem_resolved he
    exact ⟨_, _, hn, hv, rfl⟩

section Changes

variable {more : NodeId → List Shape} (hs : i.Layout d₀ d as own more)
include hs

theorem Layout.taking?_changeOf (hn : n ∈ i.accessors.names) {e : String × Json}
    (h : (changeOf grow as n v).taking? = some e) : e.1 = n := by
  rcases hs.changeOf_cases grow hn v with ⟨ls, -, hc⟩ | ⟨a, -, ts, hc⟩ | hc <;> rw [hc] at h
  · exact (congrArg Prod.fst (Option.some.inj h)).symm
  · exact (congrArg Prod.fst (Option.some.inj h)).symm
  · cases h

theorem Layout.differ_takings (grow : Blueprint → Json → Option Tree) (hn : (as.map (·.1)).Nodup)
    (data : Json) : (takings grow as data).Pairwise Change.Differ := by
  rw [takings]
  split
  · exact .nil
  · have hnames := map_fst_filterMap id (fun n => data.resolve? n) (as.map (·.1))
    rw [List.map_id] at hnames
    have hresolved : ((resolved data (as.map (·.1))).map (·.1)).Nodup := hnames ▸ hn.filter _
    rw [List.pairwise_map]
    refine (List.pairwise_map.mp hresolved).imp_of_mem fun {e e'} he he' hne n v w h h' => hne ?_
    rw [← hs.names] at he he'
    have hfirst := hs.taking?_changeOf (mem_resolved he).1 h
    have hsecond := hs.taking?_changeOf (mem_resolved he').1 h'
    exact hfirst.symm.trans hsecond

end Changes

theorem Steady.settled (h : i.Steady s data) (hp : PictureOf d₀ as own s.document i p)
    (compiled : ∀ n a view, (n, .iterating a view []) ∈ as → view.IsCompiled) (hw : Wired as)
    (hn : (as.map (·.1)).Nodup) :
    Change.Settled (Change.applyAll p (takings (alone i.registry) as data)).value p
      (takings (alone i.registry) as data) := by
  have hlater := hp.configure compiled data
  obtain ⟨more, hs, -⟩ := hp.layout
  refine Change.settled_of_reads (hs.differ_takings _ hn data) fun c hc n v ls hinscribe r hr m hm c'
    hc' w htaking => ?_
  obtain ⟨n', v', hmem, hv', rfl⟩ := exists_of_mem_takings hc
  obtain ⟨m', w', hmem', -, rfl⟩ := exists_of_mem_takings hc'
  rw [← hs.names] at hmem hmem'
  obtain rfl := hs.taking?_changeOf hmem' htaking
  dsimp only at hm ⊢
  rcases hs.changeOf_cases (alone i.registry) hmem v' with ⟨ls₁, hget, hc₁⟩ | ⟨a, -, ts, hc₁⟩ | hc₁
  · rw [hc₁] at hinscribe
    obtain ⟨rfl, rfl, rfl⟩ := Change.inscribe.inj hinscribe
    rcases hs.changeOf_cases (alone i.registry) hmem' w' with
      ⟨ls₂, hget', hc₂⟩ | ⟨a, hanchor, ts, hc₂⟩ | hc₂
    -- A property that is bound writes each text that reads it, so this one is written anew.
    · left
      rw [hc₂]
      exact hw.shared _ _ _ _ _ (hs.mem_of_get? hget) hr (hs.mem_of_get? hget') hm
    -- A region writes no text, so its value has to show as before.
    · right
      have hlocations : r ∈ i.locations n' := by rwa [locations_of_get? hget]
      have hsteady := (h n' hmem (Option.isSome_iff_exists.mpr ⟨v', hv'⟩) r hlocations m hm).resolve_left
        (by rw [hanchor]; exact Option.some_ne_none a)
      rw [valueText, valueText, hlater.values, hp.values] at hsteady
      exact hsteady.symm
    · rw [hc₂] at htaking
      cases htaking
  · rw [hc₁] at hinscribe
    cases hinscribe
  · rw [hc₁] at hinscribe
    cases hinscribe

/-- After any calls, an instance of a template that takes data twice is as if it took it once, unless a
text that is written reads a property that iterates and shows otherwise afterwards. -/
theorem sight_configure_twice {text : String} {config : Config} {registry : Registry}
    {className : Option String} {data₀ : Option Json} {s : Stage} {i : Instance}
    (h : (Template.new text config registry).instantiate className data₀ = .ok (s, i))
    (calls : List Call) {s' : Stage} {j : Instance} (hrun : Call.run (s, i) calls = (s', j))
    {data : Json} (steady : j.Steady s' data) :
    sight (Call.run (s', j) [.configure data, .configure data]) =
        sight (Call.run (s', j) [.configure data]) ∧
      ∀ n, ((Call.run (s', j) [.configure data, .configure data]).2.children n).length =
        ((Call.run (s', j) [.configure data]).2.children n).length := by
  obtain ⟨b, log, l, id, ss, d, -, hv, hexhibits, hcompiled, hall⟩ := exists_pictureReached_run h
  have hw := wired_accessorsAt ⟨config, (scan text).2⟩ b hexhibits
  have hn := nodup_names_accessorsAt hv id
  generalize accessorsAt ⟨config, (scan text).2⟩ b id l ss = as at hcompiled hall hw hn
  have hj := hall calls
  rw [hrun] at hj
  obtain ⟨hregistry, values, hpicture⟩ := hj
  generalize Change.applyAll (.ofCopy d) (values.map fun e =>
    changeOf (alone registry) as e.1 e.2) = p at hpicture
  refine ⟨?_, length_children_configure_twice s' j data⟩
  have hfirst := hpicture.configure hcompiled data
  have hsecond := hfirst.configure hcompiled data
  obtain ⟨k, taken, hconfined, hk⟩ := confined_configure s' j data
  have hsame : (j.configure s' data).2.registry = j.registry := by
    rw [hk]
    exact hconfined.registry
  obtain ⟨more, hs, -⟩ := hpicture.layout
  rw [hsame, Change.applyAll_applyAll (hs.differ_takings _ hn data)
    (steady.settled hpicture hcompiled hw hn)] at hsecond
  have honce := hfirst.sight (q := j.configure s' data)
  have htwice := hsecond.sight (q := (j.configure s' data).2.configure (j.configure s' data).1 data)
  exact htwice.trans honce.symm

/-- What makes a user's section steady: its title reads a part of the user next to a size, and both are
bound. -/
theorem sight_configure_twice_user :
    ∃ q, (Template.new userText .standard .standard).instantiate none none = .ok q ∧
      sight (Call.run (Call.run q [.set "user" (.string "u")])
          [.configure userData, .configure userData]) =
        sight (Call.run (Call.run q [.set "user" (.string "u")]) [.configure userData]) := by
  obtain ⟨q, hq, hcheck⟩ := exists_of_check (.new userText .standard .standard) none none
    (fun q =>
      let q := Call.run q [.set "user" (.string "u")]
      decide (q.2.Steady q.1 userData)) (by decide +kernel)
  exact ⟨q, hq, (sight_configure_twice (s := q.1) (i := q.2) hq [.set "user" (.string "u")] rfl
    (of_decide_eq_true hcheck)).1⟩

def rowsOfKind : Json := .object [("kind", .string "k"), ("rows", .array [.natural 1])]

/-- The class is written before the rows are there, and with them when they are taken once more. -/
theorem sight_configure_twice_ne :
    ∃ q, (Template.new readArray.text .standard .standard).instantiate none none = .ok q ∧
      sight (Call.run q [.configure rowsOfKind, .configure rowsOfKind]) ≠
        sight (Call.run q [.configure rowsOfKind]) := by
  obtain ⟨q, hq, hcheck⟩ := exists_of_check (.new readArray.text .standard .standard) none none
    (fun q => decide ((sight (Call.run q [.configure rowsOfKind, .configure rowsOfKind])).1 ≠
      (sight (Call.run q [.configure rowsOfKind])).1)) (by decide +kernel)
  exact ⟨q, hq, fun e => of_decide_eq_true hcheck (congrArg Prod.fst e)⟩

end Instance

end LiveMarkup
