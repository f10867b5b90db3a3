import LiveMarkup.Proofs.Instance.Building
import LiveMarkup.Proofs.Instance.Resolvable
import LiveMarkup.Template.Basic

/-!
# Coherence of bound places

After any run of calls on an instance, each place of a bound property holds what its expression
evaluates to under the values that the instance has now. A place that several properties are shown
at is written for each of them, always with the same text, and no other write reaches it.
-/

namespace LiveMarkup

open CompileContext Document Site

namespace Expression

/-- The properties that the expression shows when it is recorded under `bound`. -/
def reads (e : Expression) (bound : String) : List String :=
  match e with
  | .wholeText => [bound]
  | .concat _ => e.properties

def fragmentTextOf (value : String → Option Json) : Fragment → String
  | .literal text => text
  | .property name => ((value name).map Json.toText).getD ""

/-- The text of the expression for the property `bound`, if the properties have these values. -/
def textOf (e : Expression) (bound : String) (value : String → Option Json) : String :=
  match e with
  | .wholeText => fragmentTextOf value (.property bound)
  | .concat fragments => String.join (fragments.map (fragmentTextOf value))

theorem evaluate_eq_textOf (e : Expression) (bound : String) (values : Table Json) :
    e.evaluate bound values = e.textOf bound values.get? := by
  cases e with
  | wholeText => rfl
  | concat fragments =>
    rw [evaluate, textOf]
    congr 2

theorem textOf_congr_text {e : Expression} {bound : String} {value value' : String → Option Json}
    (h : ∀ m ∈ e.reads bound,
      fragmentTextOf value (.property m) = fragmentTextOf value' (.property m)) :
    e.textOf bound value = e.textOf bound value' := by
  cases e with
  | wholeText => exact h bound List.mem_cons_self
  | concat fragments =>
    rw [textOf, textOf]
    congr 1
    refine List.map_congr_left fun f hf => ?_
    cases f with
    | literal text => rfl
    | property m => exact h m (List.mem_filterMap.mpr ⟨_, hf, rfl⟩)

theorem textOf_congr {e : Expression} {bound : String} {value value' : String → Option Json}
    (h : ∀ m ∈ e.reads bound, value m = value' m) : e.textOf bound value = e.textOf bound value' :=
  textOf_congr_text fun m hm => by rw [fragmentTextOf, fragmentTextOf, h m hm]

theorem textOf_bound {e : Expression} {n m : String} (h : e = .wholeText → n = m)
    (value : String → Option Json) : e.textOf n value = e.textOf m value := by
  cases e with
  | wholeText => rw [h rfl]
  | concat fragments => rfl

theorem evaluate_congr {e : Expression} {bound : String} {values values' : Table Json}
    (h : ∀ m ∈ e.reads bound, values.get? m = values'.get? m) :
    e.evaluate bound values = e.evaluate bound values' := by
  rw [evaluate_eq_textOf, evaluate_eq_textOf, textOf_congr h]

theorem evaluate_bound {e : Expression} {n m : String} (h : e = .wholeText → n = m)
    (values : Table Json) : e.evaluate n values = e.evaluate m values := by
  rw [evaluate_eq_textOf, evaluate_eq_textOf, textOf_bound h]

end Expression

/-- No other attribute of the form control stands for the live value that the place stands for. -/
def Document.Sole (d : Document) : Place → Prop
  | .node _ => True
  | .attribute owner index => ∀ j, BoundLocation.isLiveValue d owner index = true →
      BoundLocation.isLiveValue d owner j = true → j = index

theorem Document.sole_congr {d d' : Document} {p : Place} (live : ∀ j,
    BoundLocation.isLiveValue d' p.owner j = BoundLocation.isLiveValue d p.owner j) :
    d'.Sole p ↔ d.Sole p := by
  cases p with
  | node x => exact Iff.rfl
  | «attribute» x index =>
    rw [Place.owner] at live
    simp only [Sole, live]

theorem Document.Sole.eq_of_clash {d : Document} {p q : Place} {l : Label} (h : d.Sole p)
    (hl : d.label? p.owner = some l) (howner : p.owner = q.owner) (hclash : l.Clash p q) : q = p := by
  rcases hclash with rfl | ⟨j, k, hp, hq, hj, hk⟩
  · rfl
  · rw [hp, Sole] at h
    rw [isLiveValue_eq hl, hj] at h
    have hkj := h k rfl (by rw [isLiveValue_eq hl, hk])
    rw [hp, hq, ← howner, hkj]

namespace Instance

/-! ### How places are shared -/

/-- Accessors whose bound properties share places only with the same text. -/
structure Wired (as : List (String × Accessor Instance)) : Prop where
  shared : ∀ n ls r m ls', (n, .bound ls) ∈ as → r ∈ ls → (m, .bound ls') ∈ as →
    m ∈ r.expression.reads n → r ∈ ls'
  apart : ∀ n ls r m ls' r', (n, .bound ls) ∈ as → r ∈ ls → (m, .bound ls') ∈ as → r' ∈ ls' →
    r.place = r'.place → r = r' ∧ (r.expression = .wholeText → n = m)

variable {ctx : CompileContext} {l : Label} {ss : List Site} {b : Blueprint} {id : NodeId}
  {d : Document} {name : String}

/-- Only a location itself is written where it is read. -/
theorem Wired.eq_of_clash {as : List (String × Accessor Instance)} (hw : Wired as) {n m : String}
    {ls ls' : List BoundLocation} {r r' : BoundLocation} {k : Label} (hn : (n, .bound ls) ∈ as)
    (hr : r ∈ ls) (hm : (m, .bound ls') ∈ as) (hr' : r' ∈ ls') (hsole : d.Sole r.place)
    (hk : d.label? r.place.owner = some k) (howner : r.place.owner = r'.place.owner)
    (hclash : k.Clash r.place r'.place) : r = r' ∧ (r.expression = .wholeText → n = m) :=
  hw.apart _ _ _ _ _ _ hn hr hm hr' (hsole.eq_of_clash hk howner hclash).symm

theorem wired_accessorsAt (ctx : CompileContext) (b : Blueprint) (h : d.Exhibits id l ss) :
    Wired (accessorsAt ctx b id l ss) := by
  have hmarks := h.nodup_allMarks
  constructor
  · intro n ls r m ls' hn hr hm hreads
    obtain rfl := bound_mem_accessorsAt hn
    obtain rfl := bound_mem_accessorsAt hm
    rw [mem_locationsOf] at hr ⊢
    rcases mem_places.mp hr with ⟨x, hx, rfl⟩ | ⟨x, l', hx, a, i, ha, hmarkers, -, rfl⟩
    · obtain rfl : m = n := by simpa [Expression.reads] using hreads
      exact hr
    · have hnames : m ∈ ctx.namesIn a.2 := mem_properties_ofText.mp hreads
      exact mem_places.mpr (.inr ⟨x, l', hx, a, i, ha, hmarkers, hnames, rfl⟩)
  · intro n ls r m ls' r' hn hr hm hr' hplace
    obtain rfl := bound_mem_accessorsAt hn
    obtain rfl := bound_mem_accessorsAt hm
    rw [mem_locationsOf] at hr hr'
    rcases mem_places.mp hr with ⟨x, hx, rfl⟩ | ⟨x, l₁, hx, a, i, ha, -, -, rfl⟩
    · rcases mem_places.mp hr' with ⟨y, hy, rfl⟩ | ⟨y, l₂, -, a', j, -, -, -, rfl⟩
      · obtain rfl : x = y := Place.node.inj hplace
        exact ⟨rfl, fun _ => Mark.text.inj (eq_of_mem_marks hmarks hx hy)⟩
      · cases hplace
    · rcases mem_places.mp hr' with ⟨y, -, rfl⟩ | ⟨y, l₂, hy, a', j, ha', -, -, rfl⟩
      · cases hplace
      · obtain ⟨rfl, rfl⟩ := Place.attribute.inj hplace
        obtain rfl := Mark.attributes.inj (eq_of_mem_marks hmarks hx hy)
        rw [ha] at ha'
        obtain rfl := Option.some.inj ha'
        exact ⟨rfl, fun hwhole => absurd hwhole (ofText_ne_wholeText _ _)⟩

theorem has_of_exhibits (h : d.Exhibits id l ss) (hs : SoundView l (Site.parts ss))
    {ls : List BoundLocation} (hn : (name, .bound ls) ∈ accessorsAt ctx b id l ss)
    {r : BoundLocation} (hr : r ∈ ls) :
    ∃ k, d.label? r.place.owner = some k ∧ k.Has r.place := by
  obtain rfl := bound_mem_accessorsAt hn
  rw [mem_locationsOf] at hr
  rcases mem_places.mp hr with ⟨x, hx, rfl⟩ | ⟨x, l', hx, a, i, ha, -, -, rfl⟩
  · exact ⟨_, (h.label_of_mem hs _ hx).1, rfl⟩
  · refine ⟨_, (h.label_of_mem hs _ hx).1, ?_⟩
    have hlt := (List.getElem?_eq_some_iff.mp ha).1
    simpa [Label.Has, Mark.label, Label.blanked] using hlt

/-! ### The invariant -/

/-- The places of bound properties can be written, and hold what their expressions evaluate to, if
these read bound properties only and one of them has a value. -/
structure Coherent (d : Document) (i : Instance) : Prop where
  has : ∀ n ls r, i.accessors.get? n = some (.bound ls) → r ∈ ls →
    ∃ k, d.label? r.place.owner = some k ∧ k.Has r.place
  shown : ∀ n ls r, i.accessors.get? n = some (.bound ls) → r ∈ ls →
    (∀ m ∈ r.expression.reads n, ∃ ls', i.accessors.get? m = some (.bound ls')) →
    (∃ m ∈ r.expression.reads n, i.get? m ≠ none) → d.Sole r.place →
    d.textAt? r.place = some (r.expression.evaluate n i.values)

variable {i i' : Instance} {d' : Document}

theorem Coherent.frame (h : Coherent d i)
    (bound : ∀ n ls, i'.accessors.get? n = some (.bound ls) → i.accessors.get? n = some (.bound ls))
    (values : ∀ n ls, i'.accessors.get? n = some (.bound ls) → i'.get? n = i.get? n)
    (labels : ∀ n ls r, i.accessors.get? n = some (.bound ls) → r ∈ ls →
      d'.label? r.place.owner = d.label? r.place.owner) : Coherent d' i' := by
  constructor
  · intro n ls r hn hr
    rw [labels n ls r (bound n ls hn) hr]
    exact h.has n ls r (bound n ls hn) hr
  · intro n ls r hn hr hreads hvalue hsole
    have hlabel := labels n ls r (bound n ls hn) hr
    have hsame : ∀ m ∈ r.expression.reads n, i'.get? m = i.get? m := by
      intro m hm
      obtain ⟨ls', hm'⟩ := hreads m hm
      exact values m ls' hm'
    obtain ⟨k, hk, -⟩ := h.has n ls r (bound n ls hn) hr
    have hsole' : d.Sole r.place := (sole_congr fun j => by
      rw [isLiveValue_eq hk, isLiveValue_eq (hlabel.trans hk)]).mp hsole
    rw [textAt?_eq, hlabel, ← textAt?_eq]
    rw [h.shown n ls r (bound n ls hn) hr
      (fun m hm => (hreads m hm).imp fun ls' hm' => bound m ls' hm') ?_ hsole']
    · exact congrArg some (Expression.evaluate_congr hsame).symm
    · obtain ⟨m, hm, hne⟩ := hvalue
      exact ⟨m, hm, by rwa [← hsame m hm]⟩

/-- At a place that is the only one of its kind, a property writes what its values make of the place's
expression, if the place is one of its own. Otherwise the text there stays. -/
theorem Coherent.textAt?_write {d₀ : Document} {as : List (String × Accessor Instance)} {own : Shape}
    {more : NodeId → List Shape} (h : Coherent d i) (hs : i.Layout d₀ d as own more) (hw : Wired as)
    {ls₀ ls : List BoundLocation} {n : String} {r : BoundLocation}
    (hget : i.accessors.get? name = some (.bound ls₀)) (hn : i.accessors.get? n = some (.bound ls))
    (hr : r ∈ ls) (hsole : d.Sole r.place) (values : Table Json) :
    (r ∈ ls₀ → (writeLocations d name values ls₀).textAt? r.place =
      some (r.expression.evaluate n values)) ∧
      (r ∉ ls₀ → (writeLocations d name values ls₀).textAt? r.place = d.textAt? r.place) := by
  obtain ⟨k, hk, -⟩ := h.has n ls r hn hr
  have hk' : (writeLocations d name values ls₀).label? r.place.owner = some (k.inscribeAll name values
      (ls₀.filter (·.place.owner = r.place.owner))) := by
    rw [label?_writeLocations, hk, Option.map_some]
  have howner : ∀ r' ∈ ls₀.filter (·.place.owner = r.place.owner),
      r.place.owner = r'.place.owner := by
    intro r' hr'
    exact (of_decide_eq_true (List.mem_filter.mp hr').2).symm
  have hclash : ∀ r' ∈ ls₀.filter (·.place.owner = r.place.owner), k.Clash r.place r'.place →
      r = r' ∧ (r.expression = .wholeText → n = name) := fun r' hr' hclash =>
    hw.eq_of_clash (hs.mem_of_get? hn) hr (hs.mem_of_get? hget) (List.mem_of_mem_filter hr') hsole hk
      (howner r' hr') hclash
  rw [textAt?_eq, textAt?_eq, hk', hk, Option.bind_some, Option.bind_some]
  refine ⟨fun hin => ?_, fun hout => ?_⟩
  · refine Label.textAt?_inscribeAll_of_clash howner (fun r' hr' => ?_) (fun r' hr' hc => ?_)
      (.inr ⟨r, List.mem_filter.mpr ⟨hin, by simp⟩, .inl rfl⟩)
    · obtain ⟨k', hk', hhas⟩ := h.has name ls₀ r' hget (List.mem_of_mem_filter hr')
      rw [← howner r' hr', hk] at hk'
      obtain rfl := Option.some.inj hk'
      exact hhas
    · obtain ⟨rfl, hwhole⟩ := hclash r' hr' hc
      exact (Expression.evaluate_bound hwhole _).symm
  · exact Label.textAt?_inscribeAll_of_not_clash howner
      fun r' hr' hc => hout ((hclash r' hr' hc).1 ▸ List.mem_of_mem_filter hr')

theorem Coherent.write {d₀ : Document} {as : List (String × Accessor Instance)} {own : Shape}
    {more : NodeId → List Shape} (h : Coherent d i) (hs : i.Layout d₀ d as own more) (hw : Wired as)
    {ls₀ : List BoundLocation} (hget : i.accessors.get? name = some (.bound ls₀)) (v : Json) :
    Coherent (writeLocations d name (i.values.put name v) ls₀) (i.withValue name v) := by
  have hlabel : ∀ x, (writeLocations d name (i.values.put name v) ls₀).label? x =
      (d.label? x).map (Label.inscribeAll name (i.values.put name v)
        (ls₀.filter (·.place.owner = x))) := label?_writeLocations d ls₀
  constructor
  · intro n ls r hn hr
    obtain ⟨k, hk, hhas⟩ := h.has n ls r hn hr
    exact ⟨_, by rw [hlabel, hk]; rfl, Label.has_inscribeAll.mpr hhas⟩
  · intro n ls r hn hr hreads hvalue hsole
    obtain ⟨k, hk, -⟩ := h.has n ls r hn hr
    have hk' := hlabel r.place.owner
    rw [hk] at hk'
    have hsole' : d.Sole r.place := (sole_congr fun j => by
      rw [isLiveValue_eq hk', Label.isLive_inscribeAll, isLiveValue_eq hk]).mp hsole
    obtain ⟨hwritten, hother⟩ := h.textAt?_write hs hw hget hn hr hsole' (i.values.put name v)
    by_cases hin : r ∈ ls₀
    · exact hwritten hin
    -- then its expression does not read the property
    · have hnot : name ∉ r.expression.reads n := fun hread =>
        hin (hw.shared _ _ _ _ _ (hs.mem_of_get? hn) hr (hs.mem_of_get? hget) hread)
      have hsame : ∀ m ∈ r.expression.reads n, (i.withValue name v).get? m = i.get? m := by
        intro m hm
        have hne : m ≠ name := fun e => hnot (e ▸ hm)
        exact Table.get?_put_of_ne _ _ hne
      have hold := h.shown n ls r hn hr hreads (by
        obtain ⟨m, hm, hne⟩ := hvalue
        exact ⟨m, hm, by rwa [← hsame m hm]⟩) hsole'
      rw [hother hin, hold]
      exact congrArg some (Expression.evaluate_congr hsame).symm

theorem Coherent.assigned {d₀ : Document} {as : List (String × Accessor Instance)} {own : Shape}
    {more : NodeId → List Shape} {build : Build} {P : Blueprint → Json → Tree → Prop} {s : Stage}
    {v : Json} {o : Outcome} (h : Coherent s.document i) (hs : i.Layout d₀ s.document as own more)
    (hw : Wired as) (ha : Assigned build P s i name v o) : Coherent o.stage.document o.self := by
  have hput : ∀ n, n ≠ name → (i.withValue name v).get? n = i.get? n := fun n hn =>
    Table.get?_put_of_ne _ _ hn
  cases ha with
  | written get =>
    have hwrite := h.write hs hw get v
    exact ⟨hwrite.has, hwrite.shown⟩
  | @regenerated a view former batch items s' d' ts get value ids grown trees document =>
    have hne : ∀ n ls, (i.withAccessor name (.iterating a view batch)).accessors.get? n =
        some (.bound ls) → n ≠ name ∧ i.accessors.get? n = some (.bound ls) := by
      intro n ls hn
      by_cases hname : n = name
      · rw [hname, withAccessor, Table.get?_put_self] at hn
        cases hn
      · rw [withAccessor, Table.get?_put_of_ne _ _ hname] at hn
        exact ⟨hname, hn⟩
    refine h.frame (fun n ls hn => (hne n ls hn).2) (fun n ls hn => hput n (hne n ls hn).1) ?_
    intro n ls r hn hr
    have hown := hs.owners n ls (hs.mem_of_get? hn) r hr
    obtain ⟨m, hm⟩ := hs.grown.head_holds.live _ (Shape.mem_ids_extendBy.mpr (.inl hown))
    have hlabel := (hs.grown_regenerate get ids grown).2 r.place.owner
      (.inl (Shape.mem_ids_extendBy.mpr (.inl hown)))
    rw [document, hlabel, label?, label?, grown.keeps hm]
  | refused get reason grown =>
    refine h.frame (fun _ _ hn => hn) (fun _ _ _ => rfl) fun n ls r _ _ => ?_
    rw [label?, label?, grown.frame _ (by simp)]
  | kept get =>
    refine h.frame (fun _ _ hn => hn) (fun n ls hn => hput n ?_) fun _ _ _ _ _ => rfl
    rintro rfl
    rw [withValue, get] at hn
    cases hn

end Instance

inductive Call where
  | set (name : String) (v : Json)
  | configure (data : Json)

namespace Call

def apply (p : Stage × Instance) : Call → Stage × Instance
  | .set name v => ((p.2.set p.1 name v).stage, (p.2.set p.1 name v).self)
  | .configure data => p.2.configure p.1 data

def run (p : Stage × Instance) (calls : List Call) : Stage × Instance := calls.foldl apply p

end Call

namespace Instance

/-- The instance consists of the nodes at the sites of its view, and is coherent. -/
def CoherentAt (ctx : CompileContext) (b : Blueprint) (id : NodeId) (l : Label) (ss : List Site)
    (d : Document) (i : Instance) : Prop :=
  (∃ more, i.Layout .empty d (accessorsAt ctx b id l ss) (.node id (shapesAll ss)) more) ∧
    Coherent d i

variable {ctx : CompileContext} {l : Label} {ss : List Site} {b : Blueprint} {id : NodeId}

theorem CoherentAt.receive {d : Document} {i : Instance} (h : CoherentAt ctx b id l ss d i) (k : Hook) :
    CoherentAt ctx b id l ss d (i.receive k) := by
  obtain ⟨⟨more, hlayout⟩, hcoherent⟩ := h
  exact ⟨⟨more, hlayout.receive k⟩, ⟨hcoherent.has, hcoherent.shown⟩⟩

theorem CoherentAt.assign (hv : IsView ctx l (Site.parts ss) b)
    (hw : Wired (accessorsAt ctx b id l ss)) (registry : Registry) (s : Stage) (i : Instance)
    (name : String) (v : Json) (h : CoherentAt ctx b id l ss s.document i) :
    CoherentAt ctx b id l ss (assignWith (build registry) s i name v).stage.document
      (assignWith (build registry) s i name v).self := by
  obtain ⟨⟨more, hlayout⟩, hcoherent⟩ := h
  have ha : Assigned (build registry) (fun _ _ _ => True) s i name v
      (assignWith (build registry) s i name v) := by
    refine assignWith_assigned hlayout.grown.tidy fun a view cs hget => ?_
    obtain ⟨l', ps', hview⟩ := hlayout.isView_of_get? hv hget
    have hadds := buildWithin_addsTree registry view.depth hview
    exact ⟨hadds.built, hadds.failed⟩
  exact ⟨hlayout.assigned ha, hcoherent.assigned hlayout hw ha⟩

theorem CoherentAt.configure (hv : IsView ctx l (Site.parts ss) b)
    (hw : Wired (accessorsAt ctx b id l ss)) (registry : Registry) {s : Stage} {i : Instance}
    (data : Json) (h : CoherentAt ctx b id l ss s.document i) :
    CoherentAt ctx b id l ss (configureWith (build registry) s i data).1.document
      (configureWith (build registry) s i data).2 :=
  configureWith_preserves (CoherentAt ctx b id l ss) (CoherentAt.assign hv hw registry)
    (fun _ _ k hi => hi.receive k) data h

theorem CoherentAt.apply (hv : IsView ctx l (Site.parts ss) b)
    (hw : Wired (accessorsAt ctx b id l ss)) {p : Stage × Instance}
    (h : CoherentAt ctx b id l ss p.1.document p.2) (c : Call) :
    CoherentAt ctx b id l ss (c.apply p).1.document (c.apply p).2 := by
  cases c with
  | set name v =>
    exact assignAllWith_preserves (CoherentAt ctx b id l ss) (CoherentAt.assign hv hw p.2.registry) _ h
  | configure data => exact h.configure hv hw p.2.registry data

theorem CoherentAt.run (hv : IsView ctx l (Site.parts ss) b) (hw : Wired (accessorsAt ctx b id l ss))
    (calls : List Call) {p : Stage × Instance} (h : CoherentAt ctx b id l ss p.1.document p.2) :
    CoherentAt ctx b id l ss (Call.run p calls).1.document (Call.run p calls).2 := by
  induction calls generalizing p with
  | nil => exact h
  | cons c calls ih => exact ih (h.apply hv hw c)

theorem coherent_of_no_values {d : Document} {i : Instance} (hvalues : i.values = .empty)
    (has : ∀ n ls r, i.accessors.get? n = some (.bound ls) → r ∈ ls →
      ∃ k, d.label? r.place.owner = some k ∧ k.Has r.place) : Coherent d i := by
  refine ⟨has, fun n ls r _ _ _ hvalue => ?_⟩
  obtain ⟨m, -, hne⟩ := hvalue
  rw [get?, hvalues] at hne
  exact absurd rfl hne

end Instance

/-- A template has been compiled when it has an instance. -/
theorem Template.exists_blueprint {text : String} {config : Config} {registry : Registry}
    {className : Option String} {data : Option Json} {s : Stage} {i : Instance}
    (h : (Template.new text config registry).instantiate className data = .ok (s, i)) :
    ∃ b log, Blueprint.compile config text none = (.ok b, log) ∧
      Instance.instantiate registry ⟨.empty, log⟩ b className data = (s, .ok i) := by
  rw [Template.instantiate, Template.blueprint, Template.new] at h
  dsimp only at h
  rcases hcompile : Blueprint.compile config text none with ⟨e | b, log⟩
  · rw [hcompile] at h
    cases h
  · rw [hcompile] at h
    dsimp only at h
    rcases hbuild : Instance.instantiate registry ⟨.empty, log⟩ b className data with ⟨s', e | i'⟩
    · rw [hbuild] at h
      cases h
    · rw [hbuild] at h
      obtain ⟨rfl, rfl⟩ := Prod.mk.inj (Except.ok.inj h)
      exact ⟨b, log, rfl, hbuild⟩

namespace Instance

/-- An instance of a template stays coherent through every run of calls. -/
theorem coherent_run {text : String} {config : Config} {registry : Registry}
    {className : Option String} {data : Option Json} {s : Stage} {i : Instance}
    (h : (Template.new text config registry).instantiate className data = .ok (s, i))
    (calls : List Call) :
    Coherent (Call.run (s, i) calls).1.document (Call.run (s, i) calls).2 := by
  obtain ⟨b, log, hcompile, hbuild⟩ := Template.exists_blueprint h
  obtain ⟨l, ps, hv⟩ := exists_isView hcompile
  rcases buildWith_cases (build registry) registry className (data.getD .null) hv
      (s := ⟨.empty, log⟩) tidy_empty with
    ⟨e, -, heq⟩ | ⟨id, ss, s₁, i₁, -, rfl, hexhibits, hlayout, haccessors, hvalues, -, heq⟩
  · rw [instantiate, heq] at hbuild
    cases hbuild
  · rw [instantiate, heq] at hbuild
    have hp : configureWith (build registry) s₁ i₁ (data.getD .null) = (s, i) := by
      obtain ⟨hs, hi⟩ := Prod.mk.inj hbuild
      exact Prod.ext hs (Except.ok.inj hi)
    have hw := wired_accessorsAt ⟨config, (scan text).2⟩ b hexhibits
    have hfirst : Coherent s₁.document i₁ := coherent_of_no_values hvalues fun n ls r hn hr =>
      has_of_exhibits hexhibits hv.sound (hlayout.mem_of_get? hn) hr
    have hstart := CoherentAt.configure hv hw registry (data.getD .null) ⟨⟨_, hlayout⟩, hfirst⟩
    rw [hp] at hstart
    exact (hstart.run hv hw calls (p := (s, i))).2

/-- After any calls, each place of a bound property holds what its expression evaluates to, if the
expression reads bound properties only, one of which has a value. -/
theorem textAt?_run {text : String} {config : Config} {registry : Registry}
    {className : Option String} {data : Option Json} {s : Stage} {i : Instance}
    (h : (Template.new text config registry).instantiate className data = .ok (s, i))
    (calls : List Call) {s' : Stage} {j : Instance} (hrun : Call.run (s, i) calls = (s', j))
    {name : String} {ls : List BoundLocation} {r : BoundLocation}
    (hname : j.accessors.get? name = some (.bound ls)) (hr : r ∈ ls)
    (hreads : ∀ m ∈ r.expression.reads name, ∃ ls', j.accessors.get? m = some (.bound ls'))
    (hvalue : ∃ m ∈ r.expression.reads name, j.get? m ≠ none) (hsole : s'.document.Sole r.place) :
    s'.document.textAt? r.place = some (r.expression.evaluate name j.values) := by
  have hcoherent := coherent_run h calls
  rw [hrun] at hcoherent
  exact hcoherent.shown name ls r hname hr hreads hvalue hsole

def locations (i : Instance) (name : String) : List BoundLocation :=
  match i.accessors.get? name with
  | some (.bound ls) => ls
  | _ => []

theorem exists_bound_of_mem_locations {i : Instance} {name : String} {r : BoundLocation}
    (h : r ∈ i.locations name) : ∃ ls, i.accessors.get? name = some (.bound ls) ∧ r ∈ ls := by
  unfold locations at h
  split at h
  · exact ⟨_, ‹_›, h⟩
  · cases h

def cardText : String := "<p class=\"$\x7bkind\x7d $\x7bsize\x7d\">$\x7btitle\x7d</p>"

def cardCalls : List Call :=
  [.configure (.object [("size", .string "xl")]), .set "kind" (.string "big")]

theorem textAt?_run_card :
    ∃ p, (Template.new cardText .standard .standard).instantiate none none = .ok p ∧
      (Call.run p cardCalls).1.document.textAt? (.attribute 0 0) = some "big xl" := by
  have hcheck : (((Template.new cardText .standard .standard).instantiate none none).toOption.map
      fun p =>
        (((Call.run p cardCalls).2.locations "kind").map fun r => (r.place, r.expression.reads "kind",
          r.expression.evaluate "kind" (Call.run p cardCalls).2.values),
        ((Call.run p cardCalls).2.locations "size").isEmpty,
        ((Call.run p cardCalls).2.get? "kind").isSome,
        BoundLocation.isLiveValue (Call.run p cardCalls).1.document 0 0)) =
      some ([(.attribute 0 0, ["kind", "size"], "big xl")], false, true, false) := by
    decide +kernel
  obtain ⟨p, hp, hfacts⟩ := Option.map_eq_some_iff.mp hcheck
  have hok : (Template.new cardText .standard .standard).instantiate none none = .ok p := by
    rcases hall : (Template.new cardText .standard .standard).instantiate none none with e | q
    · rw [hall] at hp
      cases hp
    · rw [hall] at hp
      rw [Option.some.inj hp]
  obtain ⟨hkind, hfacts⟩ := Prod.mk.inj hfacts
  obtain ⟨hsize, hfacts⟩ := Prod.mk.inj hfacts
  obtain ⟨hvalue, hlive⟩ := Prod.mk.inj hfacts
  obtain ⟨r, hr, hfacts⟩ := List.mem_map.mp (hkind ▸ List.mem_singleton_self _)
  obtain ⟨hplace, hfacts⟩ := Prod.mk.inj hfacts
  obtain ⟨hreads, htext⟩ := Prod.mk.inj hfacts
  obtain ⟨ls, hget, hmem⟩ := exists_bound_of_mem_locations hr
  obtain ⟨r', hr'⟩ := List.isEmpty_eq_false_iff_exists_mem.mp hsize
  obtain ⟨ls', hget', -⟩ := exists_bound_of_mem_locations hr'
  refine ⟨p, hok, ?_⟩
  rw [← hplace, ← htext]
  refine textAt?_run hok cardCalls rfl hget hmem ?_ ?_ ?_
  · intro m hm
    rw [hreads, List.mem_pair] at hm
    rcases hm with rfl | rfl
    · exact ⟨ls, hget⟩
    · exact ⟨ls', hget'⟩
  · refine ⟨"kind", ?_, Option.isSome_iff_ne_none.mp hvalue⟩
    rw [hreads]
    exact List.mem_cons_self
  · rw [hplace]
    intro j hj
    exact absurd (hlive.symm.trans hj) Bool.false_ne_true

end Instance

end LiveMarkup
