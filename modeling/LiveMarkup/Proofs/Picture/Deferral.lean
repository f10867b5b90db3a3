import LiveMarkup.Proofs.Picture.Restriction
import LiveMarkup.Proofs.Picture.Showing

/-!
# Assignments that are put off

Properties are assigned the values that they have, one after another. If one of them is assigned a new
value at the end and not in its turn, or as well as in its turn, what comes of it is the same unless
something that is assigned in between is in the same place.
-/

namespace LiveMarkup

open Document

namespace Label

variable {l : Label} {x : NodeId} {us vs ws bs : List (Place × String)}

/-- Writes go to the end, whether they have been made in their turn or not. -/
theorem inscribed_deferred (hu : ∀ u ∈ us, u.1.owner = x) (hw : ∀ w ∈ ws, w.1.owner = x)
    (h : ∀ u ∈ us, ∀ w ∈ ws, l.Clash u.1 w.1 → u = w) (hv : vs = [] ∨ vs = us) :
    l.inscribed (bs ++ (us ++ ws)) = l.inscribed (bs ++ (vs ++ ws) ++ us) := by
  have hswap : (l.inscribed bs).inscribed (us ++ ws) = (l.inscribed bs).inscribed (ws ++ us) :=
    inscribed_comm hu hw fun u hu w hw hclash => h u hu w hw (clash_inscribed.mp hclash)
  rw [List.append_assoc, inscribed_append bs, inscribed_append bs, hswap]
  rcases hv with rfl | rfl
  · rfl
  · rw [List.append_assoc]
    refine (inscribed_append_of_mem hu (fun w hw' => ?_) fun u hu' => ⟨u, ?_, rfl⟩).symm
    · rcases List.mem_append.mp hw' with hw' | hw'
      · exact hw w hw'
      · exact hu w hw'
    · exact List.mem_append_right _ hu'

end Label

namespace Change

variable {p : Picture} {c : Change} {cs : List Change} {value : String → Option Json}

/-- Before the last change nothing has a new value, and what reads that is written anew by it. -/
theorem Taken.settled_append (h : Taken p.value cs) (hlast : (applyAll p (cs ++ [c])).value = value)
    (hreads : ∀ n v ls, .inscribe n v ls ∈ cs → ∀ r ∈ ls,
      r.expression.textOf n p.value = r.expression.textOf n value ∨ r ∈ c.locations) :
    Settled value p (cs ++ [c]) := by
  induction cs generalizing p with
  | nil => exact ⟨fun n v ls _ r _ => .inl (by rw [← hlast]; rfl), trivial⟩
  | cons c' cs ih =>
    have hsame := h.value_apply
    refine ⟨fun n v ls hc r hr => ?_, ih ?_ hlast ?_⟩
    · rw [hsame]
      exact (hreads n v ls (hc ▸ List.mem_cons_self) r hr).imp_right fun hmem => ⟨c, by simp, hmem⟩
    · rw [hsame]
      exact h.tail
    · rw [hsame]
      exact fun n v ls hmem => hreads n v ls (List.mem_cons_of_mem _ hmem)

end Change

namespace Instance

variable {grow : Blueprint → Json → Option Tree} {as : List (String × Accessor Instance)}
  {p : Picture} {before after : List (String × Json)} {former : Option Json} {name : String}
  {u v : Json} {x : NodeId}

theorem writesAt_changeOf (hn : (as.map (·.1)).Nodup) (u v : Json) {value value' : String → Option Json}
    (h : ∀ ls, (name, .bound ls) ∈ as → ∀ r ∈ ls,
      r.expression.textOf name value = r.expression.textOf name value') :
    (changeOf grow as name u).writesAt x value = (changeOf grow as name v).writesAt x value' := by
  have hiterating : ∀ a view cs (w : Json) value,
      Table.get? ⟨as⟩ name = some (.iterating a view cs) →
      (changeOf grow as name w).writesAt x value = [] := by
    intro a view cs w value hget
    unfold changeOf
    rw [hget]
    dsimp only
    split
    · rename_i items
      cases items.mapM (grow view) <;> rfl
    · rfl
  rcases hget : Table.get? ⟨as⟩ name with _ | ⟨ls⟩ | ⟨a, view, cs⟩
  · simp only [changeOf, hget]
    rfl
  · have hmem := (Table.get?_eq_some_iff (t := ⟨as⟩) hn).mp hget
    rw [changeOf_of_bound hn hmem, changeOf_of_bound hn hmem]
    refine List.map_congr_left fun r hr => ?_
    exact congrArg (Prod.mk r.place) (h ls hmem r (List.mem_of_mem_filter hr))
  · rw [hiterating a view cs u value hget, hiterating a view cs v value' hget]

theorem exists_of_mem_writesAt (hn : (as.map (·.1)).Nodup) {value : String → Option Json}
    {w : Place × String} (h : w ∈ (changeOf grow as name v).writesAt x value) :
    ∃ ls, (name, .bound ls) ∈ as ∧ ∃ r ∈ ls, r.place.owner = x ∧
      w = (r.place, r.expression.textOf name value) := by
  cases hc : changeOf grow as name v with
  | inscribe m u ls =>
    rw [hc] at h
    obtain ⟨r, hr, hx, rfl⟩ := BoundLocation.mem_writesAt.mp h
    obtain ⟨rfl, hls⟩ := exists_bound_of_inscribe hn hc hr
    exact ⟨ls, hls, r, hr, hx, rfl⟩
  | _ =>
    rw [hc] at h
    cases h

theorem exists_of_mem_hungAt (hn : (as.map (·.1)).Nodup) {y : String × Tree}
    (h : y ∈ (changeOf grow as name v).hungAt x) :
    y.1 = name ∧ (∃ items, v = .array items) ∧ ∃ view cs, (name, .iterating x view cs) ∈ as := by
  unfold changeOf at h
  split at h
  · cases h
  · cases h
  · rename_i a view cs hget
    split at h
    · rename_i items
      cases hall : items.mapM (grow view) with
      | none =>
        rw [hall] at h
        cases h
      | some ts =>
        rw [hall, Option.elim_some, Change.hungAt] at h
        split at h
        · rename_i hx
          obtain ⟨t, -, rfl⟩ := List.mem_map.mp h
          exact ⟨rfl, ⟨items, rfl⟩, view, cs, hx ▸ (Table.get?_eq_some_iff hn).mp hget⟩
        · cases h
    · cases h

/-- A region that has got its items has their trees, even if there are none. -/
theorem region?_changeOf (hn : (as.map (·.1)).Nodup) {a : NodeId} {view : Blueprint}
    {cs : List Instance} (hmem : (name, .iterating a view cs) ∈ as) {items : List Json}
    (success : fails grow as name (.array items) = false) :
    (changeOf grow as name (.array items)).region? = some name := by
  have hget := (Table.get?_eq_some_iff (t := ⟨as⟩) hn).mpr hmem
  rw [fails, hget] at success
  rw [changeOf, hget]
  dsimp only at success ⊢
  cases hall : items.mapM (grow view) with
  | none =>
    rw [hall] at success
    cases success
  | some ts => rfl

theorem eq_of_region?_changeOf {n m : String} {w : Json}
    (h : (changeOf grow as n w).region? = some m) : m = n := by
  obtain ⟨w', hw⟩ := Change.exists_taking_of_region h
  exact congrArg Prod.fst (taking?_changeOf hw)

/-- Properties are assigned the values that they have, and `name` takes the value in its turn. -/
def inTurn (grow : Blueprint → Json → Option Tree) (as : List (String × Accessor Instance)) (p : Picture)
    (before after : List (String × Json)) (name : String) (v : Json) : Picture :=
  Change.applyAll (p.withValue name v)
    ((before ++ (name, v) :: after).map fun e => changeOf grow as e.1 e.2)

/-- In its turn `name` is assigned what it had, if anything, and it takes the value at the end. -/
def atEnd (grow : Blueprint → Json → Option Tree) (as : List (String × Accessor Instance)) (p : Picture)
    (before after : List (String × Json)) (former : Option Json) (name : String) (v : Json) : Picture :=
  Change.applyAll p ((before ++ (former.map (name, ·)).toList ++ after).map (fun e =>
    changeOf grow as e.1 e.2) ++ [changeOf grow as name v])

/-- What is written for the values in the place of the location of `name` is that location as well. -/
def OwnPlace (as : List (String × Accessor Instance)) (p : Picture) (values : List (String × Json))
    (name : String) (r : BoundLocation) : Prop :=
  ∀ e ∈ values, ∀ ls, (e.1, .bound ls) ∈ as → ∀ r' ∈ ls, r.place.owner = r'.place.owner →
    (p.label r.place.owner).Clash r.place r'.place → r = r' ∧ (r.expression = .wholeText → name = e.1)

theorem OwnPlace.exists_of_clash {r : BoundLocation} {values : List (String × Json)}
    (h : OwnPlace as p values name r) (hn : (as.map (·.1)).Nodup) {value : String → Option Json}
    {w : Place × String}
    (hw : w ∈ values.flatMap fun e => (changeOf grow as e.1 e.2).writesAt r.place.owner value)
    (hclash : (p.label r.place.owner).Clash r.place w.1) :
    (∃ e ∈ values, ∃ ls, (e.1, .bound ls) ∈ as ∧ r ∈ ls) ∧
      (r.place, r.expression.textOf name value) = w := by
  obtain ⟨e, he, hw⟩ := List.mem_flatMap.mp hw
  obtain ⟨ls, hls, r', hr', howner, rfl⟩ := exists_of_mem_writesAt hn hw
  obtain ⟨rfl, hwhole⟩ := h e he ls hls r' hr' howner.symm hclash
  exact ⟨⟨e, he, ls, hls, hr'⟩, by rw [Expression.textOf_bound hwhole]⟩

/-- The properties are assigned the values that they have, those before `name` and those behind it, and
what is assigned to `name` can be put off. The property may have had a value before. -/
structure Defers (grow : Blueprint → Json → Option Tree) (as : List (String × Accessor Instance))
    (p : Picture) (before after : List (String × Json)) (former : Option Json) (name : String)
    (v : Json) : Prop where
  names : ((before ++ (name, v) :: after).map (·.1)).Nodup
  held : ∀ e ∈ before ++ after, p.value e.1 = some e.2
  kept : ∀ u, former = some u → p.value name = some u
  success : fails grow as name v = false
  texts : p.value name = some v ∨ ∀ e ∈ before ++ after, ∀ ls, (e.1, .bound ls) ∈ as → ∀ r ∈ ls,
    name ∈ r.expression.reads e.1 → ∃ ls', (name, .bound ls') ∈ as ∧ r ∈ ls'
  places : ∀ ls, (name, .bound ls) ∈ as → ∀ r ∈ ls, OwnPlace as p after name r
  anchors : ∀ e ∈ after, ∀ a view cs a' view' cs', (name, .iterating a view cs) ∈ as →
    (e.1, .iterating a' view' cs') ∈ as → a ≠ a'
  arrays : ∀ a view cs, (name, .iterating a view cs) ∈ as →
    (∃ items, v = .array items) ∨ ∀ items, former ≠ some (.array items)

namespace Defers

variable (h : Defers grow as p before after former name v) (hn : (as.map (·.1)).Nodup)
include h

theorem ne {e : String × Json} (he : e ∈ before ++ after) : e.1 ≠ name := by
  have hnames := h.names
  rw [List.map_append, List.map_cons, List.nodup_middle, List.nodup_cons, ← List.map_append] at hnames
  exact fun hname => hnames.1 (List.mem_map.mpr ⟨e, he, hname⟩)

omit h in
theorem mem_values {e : String × Json} (he : e ∈ before ++ (former.map (name, ·)).toList ++ after) :
    e ∈ before ++ after ∨ e.1 = name := by
  rw [List.mem_append, List.mem_append, Option.mem_toList, Option.map_eq_some_iff] at he
  rcases he with (he | ⟨u, -, rfl⟩) | he
  · exact .inl (List.mem_append_left _ he)
  · exact .inr rfl
  · exact .inl (List.mem_append_right _ he)

theorem differ_before : ((before ++ (former.map (name, ·)).toList ++ after).map fun e =>
    changeOf grow as e.1 e.2).Pairwise Change.Differ := by
  refine differ_changes ?_
  have hnames := h.names
  cases former with
  | none =>
    rw [List.map_append, List.map_cons, List.nodup_middle, List.nodup_cons] at hnames
    simpa using hnames.2
  | some u => simpa using hnames

theorem taken_before : Change.Taken p.value
    ((before ++ (former.map (name, ·)).toList ++ after).map fun e => changeOf grow as e.1 e.2) := by
  intro c hc n w htaking
  obtain ⟨e, he, rfl⟩ := List.mem_map.mp hc
  obtain ⟨rfl, rfl⟩ := Prod.mk.inj (taking?_changeOf htaking)
  rw [List.mem_append, List.mem_append, Option.mem_toList, Option.map_eq_some_iff] at he
  rcases he with (he | ⟨u, hu, he⟩) | he
  · exact h.held e (List.mem_append_left _ he)
  · exact he ▸ h.kept u hu
  · exact h.held e (List.mem_append_right _ he)

theorem held_turn {e : String × Json} (he : e ∈ before ++ (name, v) :: after) :
    Function.update p.value name (some v) e.1 = some e.2 := by
  rw [List.mem_append, List.mem_cons] at he
  rcases he with he | rfl | he
  · have hmem : e ∈ before ++ after := List.mem_append_left _ he
    rw [Function.update_of_ne (h.ne hmem), h.held e hmem]
  · rw [Function.update_self]
  · have hmem : e ∈ before ++ after := List.mem_append_right _ he
    rw [Function.update_of_ne (h.ne hmem), h.held e hmem]

theorem taken_turn : Change.Taken (Function.update p.value name (some v))
    ((before ++ (name, v) :: after).map fun e => changeOf grow as e.1 e.2) := by
  intro c hc n w htaking
  obtain ⟨e, he, rfl⟩ := List.mem_map.mp hc
  obtain ⟨rfl, rfl⟩ := Prod.mk.inj (taking?_changeOf htaking)
  exact h.held_turn he

theorem label_inTurn (x : NodeId) : (inTurn grow as p before after name v).label x =
    (p.label x).inscribed ((before ++ (name, v) :: after).flatMap fun e =>
      (changeOf grow as e.1 e.2).writesAt x (Function.update p.value name (some v))) := by
  have hturn := Change.Taken.settled (p := p.withValue name v) h.taken_turn
  rw [inTurn, hturn.label_applyAll, List.flatMap_map]
  rfl

include hn

theorem value_atEnd :
    ((atEnd grow as p before after former name v).value = p.value ∨
      (atEnd grow as p before after former name v).value = Function.update p.value name (some v)) ∧
    ∀ ls, (name, .bound ls) ∈ as →
      (atEnd grow as p before after former name v).value = Function.update p.value name (some v) := by
  rw [atEnd, Change.applyAll_concat]
  have hbefore := h.taken_before
  generalize (before ++ (former.map (name, ·)).toList ++ after).map _ = cs at hbefore
  have htaking : ∀ e, (changeOf grow as name v).taking? = some e →
      ((changeOf grow as name v).apply (Change.applyAll p cs)).value =
        Function.update p.value name (some v) := by
    intro e he
    obtain rfl := taking?_changeOf he
    rw [Change.value_apply_of_taking _ he, hbefore.value_applyAll]
  refine ⟨?_, fun ls hmem => htaking (name, v) (by rw [changeOf_of_bound hn hmem]; rfl)⟩
  cases hc : changeOf grow as name v with
  | pass => exact .inl hbefore.value_applyAll
  | _ => exact .inr (hc ▸ htaking _ (by rw [hc]; rfl))

theorem value_atEnd_of_ne {m : String} (hm : m ≠ name) :
    (atEnd grow as p before after former name v).value m = p.value m := by
  rcases (h.value_atEnd hn).1 with hlast | hlast
  · exact congrFun hlast m
  · exact (congrFun hlast m).trans (Function.update_of_ne hm _ _)

theorem textOf_atEnd {e : String × Json} (he : e ∈ before ++ (name, v) :: after)
    {ls : List BoundLocation} (hls : (e.1, .bound ls) ∈ as) {r : BoundLocation} (hr : r ∈ ls) :
    r.expression.textOf e.1 (atEnd grow as p before after former name v).value =
      r.expression.textOf e.1 (Function.update p.value name (some v)) := by
  obtain ⟨hlast, hbound⟩ := h.value_atEnd hn
  have hothers : e ∈ before ++ after ∨ e = (name, v) := by
    rw [List.mem_append, List.mem_cons] at he
    rcases he with he | rfl | he
    · exact .inl (List.mem_append_left _ he)
    · exact .inr rfl
    · exact .inl (List.mem_append_right _ he)
  rcases hothers with he | rfl
  -- The values differ at most in the property, and a text that reads it is one of its own locations.
  · rcases hlast with hlast | hlast
    · rcases h.texts with hsame | htexts
      · rw [hlast, ← hsame, Function.update_eq_self]
      · by_cases hread : name ∈ r.expression.reads e.1
        · obtain ⟨ls', hls', -⟩ := htexts e he ls hls r hr hread
          rw [hbound ls' hls']
        · refine Expression.textOf_congr fun m hm => ?_
          have hne : m ≠ name := fun e => hread (e ▸ hm)
          rw [hlast, Function.update_of_ne hne]
    · rw [hlast]
  · rw [hbound ls hls]

theorem writesAt_atEnd {e : String × Json} (he : e ∈ before ++ after) (x : NodeId) :
    (changeOf grow as e.1 e.2).writesAt x (atEnd grow as p before after former name v).value =
      (changeOf grow as e.1 e.2).writesAt x (Function.update p.value name (some v)) := by
  refine writesAt_changeOf hn e.2 e.2 fun _ hls _ hr => h.textOf_atEnd hn ?_ hls hr
  exact List.mem_append.mpr ((List.mem_append.mp he).imp_right (List.mem_cons_of_mem _))

/-- What has been written before the end stays, unless it is written anew. -/
theorem settled_atEnd :
    let cs := (before ++ (former.map (name, ·)).toList ++ after).map fun e => changeOf grow as e.1 e.2
    Change.Settled (atEnd grow as p before after former name v).value p
      (cs ++ [changeOf grow as name v]) := by
  intro cs
  obtain ⟨hlast, -⟩ := h.value_atEnd hn
  rcases h.texts with hsame | htexts
  · rw [← hsame, Function.update_eq_self, or_self] at hlast
    have htaken : Change.Taken p.value (cs ++ [changeOf grow as name v]) := by
      intro c hc n w htaking
      rcases List.mem_append.mp hc with hc | hc
      · exact h.taken_before c hc n w htaking
      · obtain rfl := List.mem_singleton.mp hc
        obtain ⟨rfl, rfl⟩ := Prod.mk.inj (taking?_changeOf htaking)
        exact hsame
    rw [hlast]
    exact htaken.settled
  refine h.taken_before.settled_append rfl fun n w ls hmem r hr => ?_
  obtain ⟨e, he, hchange⟩ := List.mem_map.mp hmem
  obtain ⟨rfl, hls⟩ := exists_bound_of_inscribe hn hchange hr
  rcases mem_values he with he | hname
  · by_cases hread : name ∈ r.expression.reads e.1
    · obtain ⟨ls', hls', hr'⟩ := htexts e he ls hls r hr hread
      rw [changeOf_of_bound hn hls']
      exact .inr hr'
    · refine .inl (Expression.textOf_congr fun m hm => ?_)
      have hne : m ≠ name := fun e => hread (e ▸ hm)
      rcases hlast with hlast | hlast
      · rw [hlast]
      · rw [hlast, Function.update_of_ne hne]
  · rw [hname] at hls
    rw [changeOf_of_bound hn hls]
    exact .inr hr

theorem label_eq (x : NodeId) : (inTurn grow as p before after name v).label x =
    (atEnd grow as p before after former name v).label x := by
  have hsettled := h.settled_atEnd hn
  obtain ⟨-, hbound⟩ := h.value_atEnd hn
  -- In the end every text is the one that the values in turn give.
  let writes (e : String × Json) :=
    (changeOf grow as e.1 e.2).writesAt x (Function.update p.value name (some v))
  have hwrites : ∀ e ∈ before ++ after, (changeOf grow as e.1 e.2).writesAt x
      (atEnd grow as p before after former name v).value = writes e := fun e he => h.writesAt_atEnd hn he x
  have hown : ∀ u, (changeOf grow as name u).writesAt x
      (atEnd grow as p before after former name v).value = writes (name, v) :=
    fun u => writesAt_changeOf hn u v fun ls hls r _ => by rw [hbound ls hls]
  have hlast : (atEnd grow as p before after former name v).label x = _ := hsettled.label_applyAll x
  generalize (atEnd grow as p before after former name v).value = last at hwrites hown hlast
  have hformer : ((former.map (name, ·)).toList.flatMap fun e =>
      (changeOf grow as e.1 e.2).writesAt x last) = [] ∨
      ((former.map (name, ·)).toList.flatMap fun e => (changeOf grow as e.1 e.2).writesAt x last) =
        writes (name, v) := by
    cases former with
    | none => exact .inl rfl
    | some u => exact .inr (by simpa using hown u)
  have hlate : ((before ++ (former.map (name, ·)).toList ++ after).flatMap fun e =>
      (changeOf grow as e.1 e.2).writesAt x last) = before.flatMap writes ++
        ((former.map (name, ·)).toList.flatMap fun e => (changeOf grow as e.1 e.2).writesAt x last) ++
        after.flatMap writes := by
    rw [List.flatMap_append, List.flatMap_append,
      List.flatMap_congr fun e he => hwrites e (List.mem_append_left _ he),
      List.flatMap_congr fun e he => hwrites e (List.mem_append_right _ he)]
  rw [List.flatMap_append, List.flatMap_singleton, hown, List.flatMap_map, hlate] at hlast
  rw [h.label_inTurn, hlast, List.flatMap_append, List.flatMap_cons,
    List.append_assoc (before.flatMap writes)]
  refine Label.inscribed_deferred (fun _ => Change.owner_of_mem_writesAt) (fun w hw => ?_)
    (fun u hu w hw hclash => ?_) hformer
  · obtain ⟨e, -, hw⟩ := List.mem_flatMap.mp hw
    exact Change.owner_of_mem_writesAt hw
  · obtain ⟨ls, hls, r, hr, rfl, rfl⟩ := exists_of_mem_writesAt hn hu
    exact ((h.places ls hls r hr).exists_of_clash hn hw hclash).2

theorem filter_hungAt {values : List (String × Json)} (hsub : values ⊆ before ++ after) (x : NodeId) :
    (values.flatMap fun e => (changeOf grow as e.1 e.2).hungAt x).filter (fun y =>
      (changeOf grow as name v).region? ≠ some y.1) =
    values.flatMap fun e => (changeOf grow as e.1 e.2).hungAt x := by
  refine List.filter_eq_self.mpr fun y hy => decide_eq_true fun hregion => ?_
  obtain ⟨e, he, hy⟩ := List.mem_flatMap.mp hy
  rw [(exists_of_mem_hungAt hn hy).1] at hregion
  exact h.ne (hsub he) (eq_of_region?_changeOf hregion)

theorem filter_hungAt_former (x : NodeId) :
    ((former.map (name, ·)).toList.flatMap fun e => (changeOf grow as e.1 e.2).hungAt x).filter
      (fun y => (changeOf grow as name v).region? ≠ some y.1) = [] := by
  refine List.filter_eq_nil_iff.mpr fun y hy => ?_
  obtain ⟨e, he, hy⟩ := List.mem_flatMap.mp hy
  rw [Option.mem_toList, Option.map_eq_some_iff] at he
  obtain ⟨u, hu, rfl⟩ := he
  obtain ⟨hname, ⟨items, rfl⟩, view, cs, hmem⟩ := exists_of_mem_hungAt hn hy
  rcases h.arrays x view cs hmem with ⟨items', rfl⟩ | hnone
  · rw [decide_eq_true_eq, not_not, hname, region?_changeOf hn hmem h.success]
  · exact absurd hu (hnone items)

theorem hungAt_behind (x : NodeId) : (changeOf grow as name v).hungAt x = [] ∨
    (after.flatMap fun e => (changeOf grow as e.1 e.2).hungAt x) = [] := by
  by_contra hboth
  rw [not_or] at hboth
  obtain ⟨y, hy⟩ := List.exists_mem_of_ne_nil _ hboth.1
  obtain ⟨y', hy'⟩ := List.exists_mem_of_ne_nil _ hboth.2
  obtain ⟨e, he, hy'⟩ := List.mem_flatMap.mp hy'
  obtain ⟨-, -, view, cs, hregion⟩ := exists_of_mem_hungAt hn hy
  obtain ⟨-, -, view', cs', hregion'⟩ := exists_of_mem_hungAt hn hy'
  exact h.anchors e he x view cs x view' cs' hregion hregion' rfl

theorem hung_eq (bare : ∀ x, p.hung x = []) (x : NodeId) :
    (inTurn grow as p before after name v).hung x =
      (atEnd grow as p before after former name v).hung x := by
  let hung (e : String × Json) := (changeOf grow as e.1 e.2).hungAt x
  have hbare : (p.withValue name v).hung x = [] := bare x
  have hturn : (inTurn grow as p before after name v).hung x =
      before.flatMap hung ++ (hung (name, v) ++ after.flatMap hung) := by
    rw [inTurn, Change.hung_applyAll _ (differ_changes h.names), hbare, List.filter_nil, List.nil_append,
      List.flatMap_map, List.flatMap_append, List.flatMap_cons]
  have hlate : (Change.applyAll p ((before ++ (former.map (name, ·)).toList ++ after).map fun e =>
      changeOf grow as e.1 e.2)).hung x =
      before.flatMap hung ++ (former.map (name, ·)).toList.flatMap hung ++ after.flatMap hung := by
    rw [Change.hung_applyAll _ h.differ_before, bare, List.filter_nil, List.nil_append,
      List.flatMap_map, List.flatMap_append, List.flatMap_append]
  rw [hturn, atEnd, Change.applyAll_concat, Change.hung_apply, hlate, List.filter_append, List.filter_append,
    h.filter_hungAt hn (List.subset_append_left _ _), h.filter_hungAt_former hn, List.append_nil,
    h.filter_hungAt hn (List.subset_append_right _ _), List.append_assoc]
  rcases h.hungAt_behind hn x with hnone | hnone
  · simp [hung, hnone]
  · simp [hung, hnone]

theorem apply_again (hv : former = some v) (bare : ∀ x, p.hung x = []) :
    (changeOf grow as name v).apply (Change.applyAll p
        ((before ++ (name, v) :: after).map fun e => changeOf grow as e.1 e.2)) =
      Change.applyAll p ((before ++ (name, v) :: after).map fun e => changeOf grow as e.1 e.2) := by
  have hsame : p.withValue name v = p := by
    rw [Picture.withValue, ← h.kept v hv, Function.update_eq_self]
  have hlabels := h.label_eq hn
  have hhung := h.hung_eq hn bare
  have htaken := h.taken_turn
  simp only [inTurn, atEnd, hsame] at hlabels hhung
  rw [← h.kept v hv, Function.update_eq_self] at htaken
  simp only [hv, Option.map_some, Option.toList_some, List.append_assoc, List.singleton_append,
    Change.applyAll_concat] at hlabels hhung
  refine Picture.ext (funext fun x => (hlabels x).symm) (funext fun x => (hhung x).symm) ?_
  refine Change.value_apply_of_taken fun n w htaking => ?_
  rw [htaken.value_applyAll]
  obtain ⟨rfl, rfl⟩ := Prod.mk.inj (taking?_changeOf htaking)
  exact h.kept w hv

/-- What stays as it is when it is assigned once more after the property had its turn stays as well when
that came at the end. -/
theorem apply_late (bare : ∀ x, p.hung x = []) {e : String × Json} (he : e ∈ before ++ after)
    (again : (changeOf grow as e.1 e.2).apply (inTurn grow as p before after name v) =
      inTurn grow as p before after name v) :
    let q := atEnd grow as p before after former name v
    (changeOf grow as e.1 e.2).apply q = q := by
  intro q
  -- The two pictures may differ in the value of the property, which a region can have refused.
  have hlabels := h.label_eq hn
  have hhung := h.hung_eq hn bare
  have hturn : (inTurn grow as p before after name v).value = _ :=
    Change.Taken.value_applyAll (p := p.withValue name v) h.taken_turn
  generalize inTurn grow as p before after name v = q' at again hturn hlabels hhung
  have hvalue : ((changeOf grow as e.1 e.2).apply q).value = q.value := by
    refine Change.value_apply_of_taken fun n w htaking => ?_
    obtain ⟨rfl, rfl⟩ := Prod.mk.inj (taking?_changeOf htaking)
    exact (h.value_atEnd_of_ne hn (h.ne he)).trans (h.held e he)
  refine Picture.ext (funext fun x => ?_) (funext fun x => ?_) hvalue
  · have hsame := congrArg (fun q => q.label x) again
    rw [Change.label_apply, again, hturn] at hsame
    rw [Change.label_apply, hvalue, h.writesAt_atEnd hn he, ← hlabels]
    exact hsame
  · have hsame := congrArg (fun q => q.hung x) again
    rw [Change.hung_apply] at hsame ⊢
    rw [← hhung]
    exact hsame

/-- It is not seen if one of the others is assigned another value with the same text at the end. -/
theorem showsAs_alike (bare : ∀ x, p.hung x = []) {e : String × Json} (he : e ∈ before ++ after)
    {w : Json} {ls : List BoundLocation} (hls : (e.1, .bound ls) ∈ as) (htext : w.toText = e.2.toText)
    (again : (changeOf grow as e.1 e.2).apply (inTurn grow as p before after name v) =
      inTurn grow as p before after name v) :
    let q := atEnd grow as p before after former name v
    ((changeOf grow as e.1 w).apply q).ShowsAs q := by
  intro q
  have hsame : (changeOf grow as e.1 e.2).apply q = q := h.apply_late hn bare he again
  have halike : ((changeOf grow as e.1 w).apply q).ShowsAs ((changeOf grow as e.1 e.2).apply q) := by
    rw [changeOf_of_bound hn hls, changeOf_of_bound hn hls]
    exact (Picture.ShowsAs.refl q).inscribe htext e.1 ls
  rwa [hsame] at halike

/-- What a location has been written in turn, with another property that it belongs to, can be written once
more. -/
theorem inscribe_of_shared {m : String} {r : BoundLocation}
    (hplace : OwnPlace as p (before ++ (name, v) :: after) m r) {e : String × Json}
    (he : e ∈ before ++ (name, v) :: after) {ls : List BoundLocation} (hls : (e.1, .bound ls) ∈ as)
    (hr : r ∈ ls) :
    let q := atEnd grow as p before after former name v
    (q.label r.place.owner).inscribe r.place (r.expression.textOf m q.value) =
      q.label r.place.owner := by
  intro q
  have hwhole := (hplace e he ls hls r hr rfl (.inl rfl)).2
  have htext := h.textOf_atEnd hn he hls hr
  rw [← h.label_eq hn, h.label_inTurn, Expression.textOf_bound hwhole, htext]
  refine Label.inscribe_inscribed_of_mem (fun w hw => ?_) (List.mem_flatMap.mpr ⟨e, he, ?_⟩)
    fun w hw hclash => ?_
  · obtain ⟨e', -, hw⟩ := List.mem_flatMap.mp hw
    exact (Change.owner_of_mem_writesAt hw).symm
  · rw [changeOf_of_bound hn hls]
    exact BoundLocation.mem_writesAt.mpr ⟨r, hr, rfl, rfl⟩
  · rw [← Expression.textOf_bound hwhole]
    exact (hplace.exists_of_clash hn hw hclash).2

theorem shown_inscribe_of_empty {m : String} {r : BoundLocation}
    (hplace : OwnPlace as p (before ++ (name, v) :: after) m r)
    (alone : ¬ ∃ e ∈ before ++ (name, v) :: after, ∃ ls, (e.1, .bound ls) ∈ as ∧ r ∈ ls)
    (hread : name ∉ r.expression.reads m) (htext : r.expression.textOf m p.value = "")
    (hlayout : (p.label r.place.owner).textAt? r.place = some "") :
    let q := atEnd grow as p before after former name v
    (q.label r.place.owner).shown.inscribe r.place (r.expression.textOf m q.value) =
      (q.label r.place.owner).shown := by
  intro q
  have hsame : r.expression.textOf m q.value = r.expression.textOf m p.value :=
    Expression.textOf_congr fun n hn' => h.value_atEnd_of_ne hn fun e => hread (e ▸ hn')
  rw [hsame, htext, ← h.label_eq hn, h.label_inTurn]
  refine Label.shown_inscribe_inscribed (fun w hw => ?_) (fun w hw hclash => ?_) hlayout
  · obtain ⟨e', -, hw⟩ := List.mem_flatMap.mp hw
    exact (Change.owner_of_mem_writesAt hw).symm
  · exact alone (hplace.exists_of_clash hn hw hclash).1

/-- It is not seen if a property without a value is assigned one without a text at the end, as far as its
locations are written with others or stand empty. -/
theorem showsAs_empty {m : String} {w : Json} {ls : List BoundLocation} (hls : (m, .bound ls) ∈ as)
    (hne : m ≠ name) (hnone : p.value m = none) (hempty : w.toText = "")
    (hplaces : ∀ r ∈ ls, OwnPlace as p (before ++ (name, v) :: after) m r)
    (hunseen : ∀ r ∈ ls, (∃ e ∈ before ++ (name, v) :: after, ∃ ls', (e.1, .bound ls') ∈ as ∧ r ∈ ls') ∨
      name ∉ r.expression.reads m ∧ r.expression.textOf m p.value = "" ∧
        (p.label r.place.owner).textAt? r.place = some "") :
    let q := atEnd grow as p before after former name v
    ((changeOf grow as m w).apply q).ShowsAs q := by
  intro q
  rw [changeOf_of_bound hn hls]
  refine .of_inscribe ?_ fun r hr => ?_
  · rw [Expression.fragmentTextOf, h.value_atEnd_of_ne hn hne, hnone, hempty]
    rfl
  by_cases hshared : ∃ e ∈ before ++ (name, v) :: after, ∃ ls', (e.1, .bound ls') ∈ as ∧ r ∈ ls'
  · obtain ⟨e, he, ls', hls', hr'⟩ := hshared
    rw [← Label.shown_inscribe, h.inscribe_of_shared hn (hplaces r hr) he hls' hr']
  · obtain ⟨hread, htext, hlayout⟩ := (hunseen r hr).resolve_left hshared
    exact h.shown_inscribe_of_empty hn (hplaces r hr) hshared hread htext hlayout

/-- It is not seen whether the property takes the value in its turn or at the end, with others behind it
of which nothing is seen. -/
theorem seen_eq (bare : ∀ x, p.hung x = []) {more : List (String × Json)}
    (unseen : ∀ e ∈ more,
      ((changeOf grow as e.1 e.2).apply (atEnd grow as p before after former name v)).ShowsAs
        (atEnd grow as p before after former name v)) (s : Shape) :
    let q := inTurn grow as p before after name v
    let q' := Change.applyAll p ((before ++ (former.map (name, ·)).toList ++ after ++
      (name, v) :: more).map fun e => changeOf grow as e.1 e.2)
    (q.treeOf s).render = (q'.treeOf s).render ∧ (q.treeOf s).controls = (q'.treeOf s).controls := by
  intro q q'
  let late := atEnd grow as p before after former name v
  have hlate : q' = Change.applyAll late (more.map fun e => changeOf grow as e.1 e.2) := by
    change Change.applyAll p _ = Change.applyAll (Change.applyAll p _) _
    rw [← Change.applyAll_append, List.append_cons, List.map_append, List.map_append, List.map_singleton]
  have hmore : q'.ShowsAs late := by
    rw [hlate]
    refine .of_applyAll fun c hc => ?_
    obtain ⟨e, he, rfl⟩ := List.mem_map.mp hc
    exact unseen e he
  have hsame : q.treeOf s = late.treeOf s :=
    Picture.treeOf_congr (fun x _ => h.label_eq hn x) fun x _ => h.hung_eq hn bare x
  exact ⟨hsame ▸ (hmore.render_eq s).symm, hsame ▸ (hmore.controls_eq s).symm⟩

end Defers

end Instance

end LiveMarkup
