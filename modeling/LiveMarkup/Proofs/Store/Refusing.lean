import LiveMarkup.Proofs.Store.Replacing
import LiveMarkup.Proofs.Instance.Failing

namespace LiveMarkup

open Document

namespace Store

variable {d : Document} {i : Instance} {s : Stage}

/-- What was done with the instances of a document has led to the instance. -/
def Reached (d : Document) (i : Instance) : Prop :=
  ∃ (d₀ : Document) (acts : List Act) (resident : String) (way : List (String × Nat)), d₀.Tidy ∧
    (∀ a ∈ acts, a.Compiled) ∧ (run ⟨d₀, .empty⟩ acts).document = d ∧
    (run ⟨d₀, .empty⟩ acts).find? resident way = some i

theorem Reached.exists_lockstepAt (h : Reached d i) :
    ∃ S watch e k, S.admits = Blueprint.IsCompiled ∧ LockstepAt S watch d e i k := by
  obtain ⟨d₀, acts, resident, way, tidy, compiled, rfl, found⟩ := h
  obtain ⟨hshared, -⟩ := (Shared.empty tidy).run compiled
  obtain ⟨j, hj, hi⟩ := Option.bind_eq_some_iff.mp found
  cases hshared.matched resident with
  | absent left => cases left.symm.trans hj
  | @present j' base base' f sh left right renamed =>
    obtain rfl := Option.some.inj (left.symm.trans hj)
    exact ⟨_, _, _, _, rfl, LockstepAt.start renamed hi⟩

theorem Reached.appearance_assignAll (h : Reached s.document i) (registry : Registry)
    {values : List (String × Json)} {n : String} (hn : n ∉ values.map (·.1)) :
    ∀ c ∈ i.children n, c.appearance
      (Instance.assignAllWith (Instance.build registry) s i values).stage.document =
        c.appearance s.document := by
  obtain ⟨S, watch, e, k, hadmits, hlock⟩ := h.exists_lockstepAt
  have hkept := hlock.kept_assignAll (s := s) (t := ⟨e, []⟩) registry (fun _ hview => hadmits ▸ hview)
    values
  exact fun c hc => ((hkept.others n hn).2 c hc).appearance

end Store

namespace Instance

variable {s : Stage} {i : Instance} {name : String} {v : Json}
  {values : List (String × Json)}

structure Rejects (i : Instance) (name : String) (v : Json) : Prop where
  iterates : i.anchor? name ≠ none
  noArray : ∀ items, v ≠ .array items

theorem Rejects.of_get? {a : NodeId} {view : Blueprint} {cs : List Instance}
    (hget : i.accessors.get? name = some (.iterating a view cs)) (hv : ∀ items, v ≠ .array items) :
    i.Rejects name v := by
  refine ⟨?_, hv⟩
  rw [anchor?_eq_some.mpr ⟨view, cs, hget⟩]
  exact Option.some_ne_none a

def rejection (name : String) (v : Json) : Event :=
  .warn (EngineError.invalidSequence name v.kindName).message []

theorem assignWith_of_rejects (h : i.Rejects name v) (build : Build) (s : Stage) :
    assignWith build s i name v = ⟨s.say (rejection name v), i, none⟩ := by
  obtain ⟨a, ha⟩ := Option.ne_none_iff_exists'.mp h.iterates
  obtain ⟨view, cs, hget⟩ := anchor?_eq_some.mp ha
  rw [assignWith, hget]
  cases v with
  | array items => exact absurd rfl (h.noArray items)
  | _ => rfl

theorem assignAllWith_of_rejects (h : ∀ p ∈ values, i.Rejects p.1 p.2) (build : Build) (s : Stage) :
    assignAllWith build s i values =
      ⟨{ s with log := s.log ++ values.map fun p => rejection p.1 p.2 }, i, none⟩ := by
  induction values generalizing s with
  | nil => rw [assignAllWith, List.map_nil, List.append_nil]
  | cons p values ih =>
    rw [assignAllWith, assignWith_of_rejects (h p List.mem_cons_self)]
    dsimp only
    rw [ih fun q hq => h q (List.mem_cons_of_mem _ hq), Stage.say, List.map_cons, List.append_assoc]
    rfl

/-- What it comes to that a property refuses a value. -/
structure Declines (s : Stage) (i : Instance) (name : String) (v : Json) : Prop where
  /-- The properties below take what is in the value for them, and nothing else happens. -/
  passes : i.set s name v = assignAllWith (Instance.build i.registry) (s.say (rejection name v)) i
    (i.dependents name v)
  confined : Confined (i.dependents name v) i (i.set s name v).self
  own : (i.set s name v).self.get? name = i.get? name ∧
    (i.set s name v).self.accessors.get? name = i.accessors.get? name
  /-- Where those below, if there are any, refuse it as well, nothing changes. -/
  unchanged : (∀ p ∈ i.dependents name v, i.Rejects p.1 p.2) →
    (i.set s name v).error = none ∧ (i.set s name v).self = i ∧
      (i.set s name v).stage.document = s.document
  appearance : Store.Reached s.document i → ∀ n ∉ i.namesBelow name, ∀ c ∈ i.children n,
    c.appearance (i.set s name v).stage.document = c.appearance s.document

/-- A value that is not an array changes nothing about a property that iterates, and nothing at all
besides what the properties below take. -/
theorem declines_of_rejects (h : i.Rejects name v) (s : Stage) : i.Declines s name v := by
  -- The refusal is no error, so the assignments below go ahead as in a set that is taken.
  have hpasses : i.set s name v = assignAllWith (Instance.build i.registry)
      (s.say (rejection name v)) i (i.dependents name v) := by
    rw [set, setWith, assignAllWith, assignWith_of_rejects h]
  have hconfined := confined_assignAllWith (Instance.build i.registry) (s.say (rejection name v)) i
    (i.dependents name v)
  have hown : name ∉ (i.dependents name v).map (·.1) := by
    rw [map_fst_dependents]
    exact i.not_mem_namesBelow name
  rw [← hpasses] at hconfined
  refine ⟨hpasses, hconfined, ⟨hconfined.get?_of_not_mem hown, hconfined.others name hown⟩,
    fun hall => ?_, fun hreached n hn => ?_⟩
  · rw [hpasses, assignAllWith_of_rejects hall]
    exact ⟨rfl, rfl, rfl⟩
  · rw [← i.map_fst_dependents name v] at hn
    rw [hpasses]
    exact Store.Reached.appearance_assignAll (s := s.say (rejection name v)) hreached i.registry hn

/-- What comes of a set shows in the markup, in the value of a property that had none, and in what the
component has heard. -/
structure Shows (s : Stage) (i : Instance) (key : String) (o : Outcome) : Prop where
  render : o.self.render o.stage.document ≠ i.render s.document
  value : i.get? key = none ∧ o.self.get? key ≠ none
  heard : o.self.component.changes ≠ i.component.changes

instance (s : Stage) (i : Instance) (key : String) (o : Outcome) : Decidable (i.Shows s key o) :=
  decidable_of_iff (_ ∧ _ ∧ _) ⟨fun h => ⟨h.1, h.2.1, h.2.2⟩, fun h => ⟨h.render, h.value, h.heard⟩⟩

end Instance

namespace Store

def placed (registry : Registry) (className : Option String) (data : Option Json) (b : Blueprint) :
    List Act :=
  [.place "card" registry b className data]

theorem reached_placed {registry : Registry} {className : Option String} {data : Option Json}
    {b : Blueprint} {i : Instance} (hb : b.IsCompiled)
    (found : (run .empty (placed registry className data b)).find? "card" [] = some i) :
    Reached (run .empty (placed registry className data b)).document i :=
  ⟨.empty, _, "card", [], tidy_empty, fun _ ha => by rwa [List.mem_singleton.mp ha], rfl, found⟩

def itemsText : String :=
  "<section><p>$\x7bitems.name\x7d</p><ul><li data-repeat=\"items\">x</li></ul></section>"

def oneItem : Json := .object [("items", .array [.natural 1])]

theorem declines_of_rejects_itemsText :
    ∃ b log i, Blueprint.compile .standard itemsText none = (.ok b, log) ∧
      (run .empty (placed .standard none oneItem b)).find? "card" [] = some i ∧
      i.namesBelow "items" = ["items.name"] ∧
      let s : Stage := ⟨(run .empty (placed .standard none oneItem b)).document, []⟩
      i.Declines s "items" (.string "none") ∧
        ∀ c ∈ i.children "items", c.appearance (i.set s "items" (.string "none")).stage.document =
          c.appearance s.document := by
  obtain ⟨b, log, i, a, view, former, hcompile, hb, found, iterates, hcheck⟩ :=
    exists_of_probe .empty itemsText (placed .standard none oneItem) "card" "items"
      (fun _ i _ => i.namesBelow "items" == ["items.name"]) (by decide +kernel)
  have hrejects : i.Rejects "items" (.string "none") :=
    .of_get? iterates fun items hitems => by cases hitems
  have hdeclines := Instance.declines_of_rejects hrejects
    ⟨(run .empty (placed .standard none oneItem b)).document, []⟩
  exact ⟨b, log, i, hcompile, found, beq_iff_eq.mp hcheck, hdeclines,
    hdeclines.appearance (reached_placed hb found) "items" (i.not_mem_namesBelow "items")⟩

def namedItems : Json := .object [("name", .string "n")]

/-- What the items refuse shows in what is named in it, and the component hears of that. -/
theorem refused_itemsText_shown :
    ∃ b log i, Blueprint.compile .standard itemsText none = (.ok b, log) ∧
      (run .empty (placed .standard none oneItem b)).find? "card" [] = some i ∧
      i.Rejects "items" namedItems ∧
      let s : Stage := ⟨(run .empty (placed .standard none oneItem b)).document, []⟩
      let o := i.set s "items" namedItems
      o.error = none ∧ i.Shows s "items.name" o := by
  obtain ⟨b, log, i, a, view, former, hcompile, hb, found, iterates, hcheck⟩ :=
    exists_of_probe .empty itemsText (placed .standard none oneItem) "card" "items"
      (fun s i _ =>
        let o := i.set s "items" namedItems
        o.error.isNone && decide (i.Shows s "items.name" o)) (by decide +kernel)
  rw [Bool.and_eq_true, Option.isNone_iff_eq_none, decide_eq_true_eq] at hcheck
  exact ⟨b, log, i, hcompile, found,
    .of_get? iterates (fun items hitems => by cases hitems), hcheck⟩

end Store

namespace Instance

variable {s : Stage} {i : Instance} {name : String} {v : Json}

/-- A set that fails is cut off at an assignment that changes nothing. It changes nothing itself if
that is the one of its own property. -/
theorem set_cutOff {e : EngineError} (h : (i.set s name v).error = some e) :
    ∃ before failed after, (name, v) :: i.dependents name v = before ++ failed :: after ∧
      CutOff s i before failed e (i.set s name v) ∧
      Confined before i (i.set s name v).self ∧
      (i.failure? name v ≠ none → i.set s name v = ⟨s, i, some e⟩) ∧
      (Store.Reached s.document i → ∀ n ∉ before.map (·.1), ∀ c ∈ i.children n,
        c.appearance (i.set s name v).stage.document = c.appearance s.document) := by
  obtain ⟨before, failed, after, hsplit, hcut⟩ := exists_cutOff rfl h
  have hset : CutOff s i before failed e (i.set s name v) := hcut
  refine ⟨before, failed, after, hsplit, hset, hset.confined, fun hfails => ?_,
    fun hreached n hn => ?_⟩
  · cases before with
    | nil => exact hset.eq_of_nil
    | cons p before =>
      obtain ⟨rfl, -⟩ := List.cons.inj hsplit
      exact absurd (hset.made (name, v) List.mem_cons_self) hfails
  · rw [hset.outcome]
    exact hreached.appearance_assignAll i.registry hn

end Instance

namespace Store

def rowsBelowText : String :=
  "<section><h2>$\x7buser\x7d</h2><ul><li data-repeat=\"user.rows\">x</li></ul></section>"

def cardsOnly : Registry := ⟨[("Card", .generic)]⟩

def userWithRow : Json := .object [("rows", .array [.natural 1])]

theorem set_cutOff_rowsBelowText :
    ∃ b log i e, Blueprint.compile .standard rowsBelowText none = (.ok b, log) ∧
      (run .empty (placed cardsOnly (some "Card") none b)).find? "card" [] = some i ∧
      let s : Stage := ⟨(run .empty (placed cardsOnly (some "Card") none b)).document, []⟩
      (i.set s "user" userWithRow).error = some e ∧
      ∃ before failed after, ("user", userWithRow) :: i.dependents "user" userWithRow =
          before ++ failed :: after ∧
        Instance.CutOff s i before failed e (i.set s "user" userWithRow) := by
  obtain ⟨b, log, i, a, view, former, hcompile, hb, found, iterates, hcheck⟩ :=
    exists_of_probe .empty rowsBelowText (placed cardsOnly (some "Card") none) "card" "user.rows"
      (fun s i _ => (i.set s "user" userWithRow).error.isSome) (by decide +kernel)
  obtain ⟨e, he⟩ := Option.isSome_iff_exists.mp hcheck
  obtain ⟨before, failed, after, hsplit, hcut, -⟩ := Instance.set_cutOff he
  exact ⟨b, log, i, e, hcompile, found, he, before, failed, after, hsplit, hcut⟩

theorem failed_set_rowsBelowText_shown :
    ∃ b log i, Blueprint.compile .standard rowsBelowText none = (.ok b, log) ∧
      (run .empty (placed cardsOnly (some "Card") none b)).find? "card" [] = some i ∧
      let s : Stage := ⟨(run .empty (placed cardsOnly (some "Card") none b)).document, []⟩
      let o := i.set s "user" userWithRow
      o.error ≠ none ∧ i.Shows s "user" o := by
  obtain ⟨b, log, i, a, view, former, hcompile, hb, found, iterates, hcheck⟩ :=
    exists_of_probe .empty rowsBelowText (placed cardsOnly (some "Card") none) "card" "user.rows"
      (fun s i _ =>
        let o := i.set s "user" userWithRow
        o.error.isSome && decide (i.Shows s "user" o)) (by decide +kernel)
  rw [Bool.and_eq_true, Option.isSome_iff_ne_none, decide_eq_true_eq] at hcheck
  exact ⟨b, log, i, hcompile, found, hcheck⟩

end Store

end LiveMarkup
