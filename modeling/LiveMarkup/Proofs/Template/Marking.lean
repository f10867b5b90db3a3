import LiveMarkup.Proofs.Instance.Building
import LiveMarkup.Proofs.Template.Filling

namespace LiveMarkup

open CompileContext Document Instance Site

namespace CompileContext

variable (ctx : CompileContext) {value? value?' : String → Option Json}

/-! ### What a label depends on -/

theorem fillText_congr {text : String} (h : ∀ m ∈ ctx.namesIn text, value? m = value?' m) :
    ctx.fillText value? text = ctx.fillText value?' text := by
  rw [fillText, fillText]
  congr 1
  refine List.map_congr_left fun g hg => ?_
  cases g with
  | literal t => rfl
  | marker i =>
    rw [segmentText, segmentText]
    cases hi : ctx.names[i]? with
    | none => rfl
    | some m =>
      have hm : m ∈ ctx.namesIn text := by
        refine List.mem_filterMap.mpr ⟨i, ?_, hi⟩
        rw [markerIndices, mem_firstOccurrences, List.mem_filterMap]
        exact ⟨_, hg, rfl⟩
      rw [Option.bind_some, Option.bind_some, h m hm]

theorem attributeText_congr (element : String) {a : String × String}
    (h : hasMarkers a.2 = true → ∀ m ∈ ctx.namesIn a.2, value? m = value?' m) :
    ctx.attributeText value? element a = ctx.attributeText value?' element a := by
  rw [attributeText, attributeText]
  by_cases hmarkers : hasMarkers a.2 = true
  · rw [if_pos hmarkers, if_pos hmarkers]
    have hany : ((ctx.namesIn a.2).any fun n => (value? n).isSome) =
        (ctx.namesIn a.2).any fun n => (value?' n).isSome := by
      rw [Bool.eq_iff_iff, List.any_eq_true, List.any_eq_true]
      refine exists_congr fun n => and_congr_right fun hn => ?_
      rw [h hmarkers n hn]
    rw [hany, ctx.fillText_congr (h hmarkers)]
  · rw [if_neg hmarkers, if_neg hmarkers]

/-- The label of a mark depends on the values of the properties that have places there. -/
theorem markLabel_congr {x : NodeId} {m : Mark}
    (h : ∀ n r, (n, r) ∈ markPlaces ctx (x, m) → value? n = value?' n) :
    ctx.markLabel value? m = ctx.markLabel value?' m := by
  cases m with
  | text name =>
    have hname : value? name = value?' name := h name _ (by rw [markPlaces]; exact List.mem_cons_self)
    rw [markLabel, markLabel, hname]
  | attributes l =>
    rw [markLabel, markLabel, shownLabel, shownLabel]
    congr 2
    refine List.map_congr_left fun a ha => ?_
    rw [ctx.attributeText_congr l.name fun hmarkers m hm => ?_]
    obtain ⟨i, hi⟩ := List.getElem?_of_mem ha
    exact h m _ (mem_attributePlaces.mpr ⟨a, i, hi, hmarkers, hm, rfl⟩)

theorem evaluate_ofText (name text : String) (values : Table Json) :
    (Expression.ofText ctx.names text).evaluate name values = ctx.fillText values.get? text := by
  rw [Expression.ofText, Expression.evaluate, fillText, List.map_map]
  congr 1
  refine List.map_congr_left fun g _ => ?_
  cases g with
  | literal t => rfl
  | marker i =>
    rw [Function.comp_apply, Fragment.ofSegment, segmentText]
    cases ctx.names[i]? <;> rfl

/-! ### The places at a mark -/

theorem owner_of_mem_markPlaces {m : NodeId × Mark} {n : String} {r : BoundLocation}
    (h : (n, r) ∈ markPlaces ctx m) : r.place.owner = m.1 := by
  have hmem : (n, r) ∈ places ctx [m] := by
    rw [places, List.flatMap_singleton]
    exact h
  simpa using owner_mem_of_mem_places hmem

theorem filter_places {ms : List (NodeId × Mark)} (hn : (ms.map (·.1)).Nodup) {x : NodeId}
    {m : Mark} (h : (x, m) ∈ ms) :
    (places ctx ms).filter (fun p => p.2.place.owner = x) = markPlaces ctx (x, m) := by
  induction ms with
  | nil => cases h
  | cons k ms ih =>
    rw [List.map_cons, List.nodup_cons] at hn
    rw [places, List.flatMap_cons, ← places, List.filter_append]
    rcases List.mem_cons.mp h with rfl | hrest
    · have hfirst : (markPlaces ctx (x, m)).filter (fun p => p.2.place.owner = x) =
          markPlaces ctx (x, m) := by
        rw [List.filter_eq_self]
        rintro ⟨n, r⟩ hr
        rw [decide_eq_true_eq]
        exact ctx.owner_of_mem_markPlaces hr
      have hnone : (places ctx ms).filter (fun p => p.2.place.owner = x) = [] := by
        rw [List.filter_eq_nil_iff]
        rintro ⟨n, r⟩ hr
        rw [decide_eq_true_eq]
        rintro rfl
        exact hn.1 (owner_mem_of_mem_places hr)
      rw [hfirst, hnone, List.append_nil]
    · have hnone : (markPlaces ctx k).filter (fun p => p.2.place.owner = x) = [] := by
        rw [List.filter_eq_nil_iff]
        rintro ⟨n, r⟩ hr
        rw [decide_eq_true_eq]
        rintro rfl
        rw [ctx.owner_of_mem_markPlaces hr] at hrest
        exact hn.1 (List.mem_map.mpr ⟨_, hrest, rfl⟩)
      rw [hnone, List.nil_append, ih hn.2 hrest]

theorem filter_locationsOf {ms : List (NodeId × Mark)} (hn : (ms.map (·.1)).Nodup) {x : NodeId}
    {m : Mark} (h : (x, m) ∈ ms) (name : String) :
    (locationsOf (places ctx ms) name).filter (·.place.owner = x) =
      locationsOf (markPlaces ctx (x, m)) name := by
  rw [locationsOf, locationsOf, ← ctx.filter_places hn h, List.filter_map, List.filter_filter,
    List.filter_filter]
  congr 1
  refine List.filter_congr fun p _ => ?_
  rw [Function.comp_apply, Bool.and_comm]

/-! ### A write at a mark -/

variable {name : String} {values : Table Json} {k : Label} {x : NodeId}

theorem mem_attributeLocations {es : List (String × String)} {r : BoundLocation} :
    r ∈ locationsOf (attributePlaces ctx x es) name ↔ ∃ a i, es[i]? = some a ∧
      hasMarkers a.2 = true ∧ name ∈ ctx.namesIn a.2 ∧
      r = ⟨.attribute x i, .ofText ctx.names a.2⟩ :=
  mem_locationsOf.trans mem_attributePlaces

theorem value_of_unwritten {rs : List BoundLocation} (howner : ∀ r ∈ rs, r.place.owner = x) {i : Nat}
    (h : k.isLive i = true ∨ ∀ r ∈ rs, r.place ≠ .attribute x i) :
    ((k.inscribeAll name values rs).attributes.entries[i]?).map (·.2) =
      (k.attributes.entries[i]?).map (·.2) := by
  by_cases hl : k.isLive i = true
  · rw [Label.getElem?_inscribeAll_of_isLive hl]
  · have hread : (k.inscribeAll name values rs).textAt? (.attribute x i) =
        k.textAt? (.attribute x i) := by
      refine Label.textAt?_inscribeAll_of_not_clash (fun r hr => (howner r hr).symm)
        fun r hr hclash => ?_
      rcases hclash with e | ⟨j, j', hj, -, hlj, -⟩
      · exact h.resolve_left hl r hr e.symm
      · obtain ⟨-, rfl⟩ := Place.attribute.inj hj
        exact hl hlj
    rw [Label.textAt?, Label.textAt?, Label.isLive_inscribeAll, if_neg hl, if_neg hl] at hread
    exact hread

theorem value_of_written {rs : List BoundLocation} (howner : ∀ r ∈ rs, r.place.owner = x)
    (hhas : ∀ r ∈ rs, k.Has r.place) {i : Nat} (hl : ¬ k.isLive i = true) {text : String}
    (htext : ∀ r ∈ rs, r.place = .attribute x i → r.expression.evaluate name values = text)
    (h : ∃ r ∈ rs, r.place = .attribute x i) :
    ((k.inscribeAll name values rs).attributes.entries[i]?).map (·.2) = some text := by
  have hread : (k.inscribeAll name values rs).textAt? (.attribute x i) = some text := by
    refine Label.textAt?_inscribeAll_of_clash (fun r hr => (howner r hr).symm) hhas
      (fun r hr hclash => ?_) (.inr ?_)
    · rcases hclash with e | ⟨j, j', hj, -, hlj, -⟩
      · exact htext r hr e.symm
      · obtain ⟨-, rfl⟩ := Place.attribute.inj hj
        exact absurd hlj hl
    · obtain ⟨r, hr, e⟩ := h
      exact ⟨r, hr, .inl e.symm⟩
  rw [Label.textAt?, Label.isLive_inscribeAll, if_neg hl] at hread
  exact hread

theorem of_mem_attributeLocations {es : List (String × String)} {r : BoundLocation} {i : Nat}
    {a : String × String} (hr : r ∈ locationsOf (attributePlaces ctx x es) name)
    (hplace : r.place = .attribute x i) (ha : es[i]? = some a) :
    hasMarkers a.2 = true ∧ name ∈ ctx.namesIn a.2 ∧ r.expression = .ofText ctx.names a.2 := by
  obtain ⟨b, j, hb, hmarkers, hin, rfl⟩ := ctx.mem_attributeLocations.mp hr
  obtain ⟨-, rfl⟩ := Place.attribute.inj hplace
  rw [ha] at hb
  obtain rfl := Option.some.inj hb
  exact ⟨hmarkers, hin, rfl⟩

theorem owner_of_mem_attributeLocations {es : List (String × String)} {r : BoundLocation}
    (hr : r ∈ locationsOf (attributePlaces ctx x es) name) : r.place.owner = x := by
  obtain ⟨b, j, -, -, -, rfl⟩ := ctx.mem_attributeLocations.mp hr
  rfl

section Shown

variable {l : Label} {i : Nat} {a : String × String} (hk : k.bare = (ctx.shownLabel value? l).bare)
include hk

theorem entries_of_bare_shownLabel : k.attributes.entries = l.attributes.entries.map fun a =>
    (a.1, ctx.attributeText value? l.name a) :=
  have h := congrArg (fun l => l.attributes.entries) hk
  h

theorem isLive_of_bare_shownLabel (ha : l.attributes.entries[i]? = some a) :
    k.isLive i = (isFormControl l.name && sameName a.1 "value") := by
  have hcontent : k.content = l.content := by
    have h := congrArg Label.content hk
    exact h
  rw [Label.isLive, ctx.entries_of_bare_shownLabel hk, List.getElem?_map, ha, Label.name, hcontent]
  rfl

/-- A written attribute shows its text with the value that is new. -/
theorem value_of_shown_written (ha : l.attributes.entries[i]? = some a)
    (hvalues : ∀ m, values.get? m = value?' m) (hname : (value?' name).isSome = true)
    (hmarkers : hasMarkers a.2 = true) (hin : name ∈ ctx.namesIn a.2) (hl : ¬ k.isLive i = true) :
    ((k.inscribeAll name values (locationsOf (attributePlaces ctx x l.attributes.entries)
        name)).attributes.entries[i]?).map (·.2) =
      some (ctx.attributeText value?' l.name a) := by
  have hany : ((ctx.namesIn a.2).any fun n => (value?' n).isSome) = true :=
    List.any_eq_true.mpr ⟨name, hin, hname⟩
  rw [attributeText, if_pos hmarkers, ← ctx.isLive_of_bare_shownLabel hk ha, if_neg hl, if_pos hany]
  refine value_of_written (fun r => ctx.owner_of_mem_attributeLocations) (fun r hr => ?_) hl
    (fun r hr hplace => ?_) ?_
  · obtain ⟨b, j, hb, -, -, rfl⟩ := ctx.mem_attributeLocations.mp hr
    have hlt := (List.getElem?_eq_some_iff.mp hb).1
    simpa [Label.Has, ctx.entries_of_bare_shownLabel hk] using hlt
  · have hget : values.get? = value?' := funext hvalues
    rw [(ctx.of_mem_attributeLocations hr hplace ha).2.2, evaluate_ofText, hget]
  · exact ⟨_, ctx.mem_attributeLocations.mpr ⟨a, i, ha, hmarkers, hin, rfl⟩, rfl⟩

theorem value_of_shown_unwritten (ha : l.attributes.entries[i]? = some a)
    (hsame : ∀ m, m ≠ name → value?' m = value? m)
    (hunwritten : ¬ (hasMarkers a.2 = true ∧ name ∈ ctx.namesIn a.2 ∧ ¬ k.isLive i = true)) :
    ((k.inscribeAll name values (locationsOf (attributePlaces ctx x l.attributes.entries)
        name)).attributes.entries[i]?).map (·.2) =
      some (ctx.attributeText value?' l.name a) := by
  have hstays : k.isLive i = true ∨
      ∀ r ∈ locationsOf (attributePlaces ctx x l.attributes.entries) name,
        r.place ≠ .attribute x i := by
    refine or_iff_not_imp_left.mpr fun hl r hr hplace => hunwritten ?_
    obtain ⟨hmarkers, hin, -⟩ := ctx.of_mem_attributeLocations hr hplace ha
    exact ⟨hmarkers, hin, hl⟩
  rw [value_of_unwritten (fun r => ctx.owner_of_mem_attributeLocations) hstays,
    ctx.entries_of_bare_shownLabel hk, List.getElem?_map, ha, Option.map_some, Option.map_some]
  by_cases hl : k.isLive i = true
  · rw [attributeText, attributeText, ← ctx.isLive_of_bare_shownLabel hk ha, if_pos hl, if_pos hl]
  · rw [ctx.attributeText_congr l.name fun hmarkers m hm => (hsame m ?_).symm]
    rintro rfl
    exact hunwritten ⟨hmarkers, hm, hl⟩

theorem value_inscribeAll_attributes (hvalues : ∀ m, values.get? m = value?' m)
    (hsame : ∀ m, m ≠ name → value?' m = value? m) (hname : (value?' name).isSome = true)
    (ha : l.attributes.entries[i]? = some a) :
    ((k.inscribeAll name values (locationsOf (attributePlaces ctx x l.attributes.entries)
        name)).attributes.entries[i]?).map (·.2) =
      some (ctx.attributeText value?' l.name a) := by
  by_cases hwritten : hasMarkers a.2 = true ∧ name ∈ ctx.namesIn a.2 ∧ ¬ k.isLive i = true
  · obtain ⟨hmarkers, hin, hl⟩ := hwritten
    exact ctx.value_of_shown_written hk ha hvalues hname hmarkers hin hl
  · exact ctx.value_of_shown_unwritten hk ha hsame hwritten

theorem entries_inscribeAll_attributes (hvalues : ∀ m, values.get? m = value?' m)
    (hsame : ∀ m, m ≠ name → value?' m = value? m) (hname : (value?' name).isSome = true) :
    (k.inscribeAll name values (locationsOf (attributePlaces ctx x l.attributes.entries)
        name)).attributes.entries =
      l.attributes.entries.map fun a => (a.1, ctx.attributeText value?' l.name a) := by
  have hnames : (k.inscribeAll name values (locationsOf (attributePlaces ctx x l.attributes.entries)
      name)).attributes.entries.map (·.1) = l.attributes.entries.map (·.1) := by
    have hold := congrArg (List.map (·.1)) (ctx.entries_of_bare_shownLabel hk)
    rw [List.map_map] at hold
    exact Label.names_inscribeAll.trans hold
  apply List.ext_getElem?
  intro i
  have hat := congrArg (fun ns => ns[i]?) hnames
  simp only [List.getElem?_map] at hat
  rw [List.getElem?_map]
  cases ha : l.attributes.entries[i]? with
  | none =>
    rw [ha, Option.map_none, Option.map_eq_none_iff] at hat
    rw [hat, Option.map_none]
  | some a =>
    have hsecond := ctx.value_inscribeAll_attributes (x := x) hk hvalues hsame hname ha
    rw [ha, Option.map_some, Option.map_eq_some_iff] at hat
    obtain ⟨b, hb, hfirst⟩ := hat
    rw [hb, Option.map_some, Option.some.injEq] at hsecond
    rw [hb, Option.map_some, ← hfirst, ← hsecond]

end Shown

/-- The label of a mark shows one value more when a property takes a value and the places of the
property at the mark are written. -/
theorem bare_inscribeAll_markPlaces {m : Mark} (hk : k.bare = (ctx.markLabel value? m).bare)
    (hvalues : ∀ m, values.get? m = value?' m) (hsame : ∀ m, m ≠ name → value?' m = value? m)
    (hname : (value?' name).isSome = true) :
    (k.inscribeAll name values (locationsOf (markPlaces ctx (x, m)) name)).bare =
      (ctx.markLabel value?' m).bare := by
  cases m with
  | text n =>
    by_cases hn : n = name
    · subst hn
      have hcontent : k.content = .text (((value? n).map Json.toText).getD "") := by
        have h := congrArg Label.content hk
        exact h
      have hattributes : k.attributes = .empty := by
        have h := congrArg Label.attributes hk
        exact h
      have hplaces : locationsOf (markPlaces ctx (x, .text n)) n = [⟨.node x, .wholeText⟩] := by
        simp [locationsOf, markPlaces]
      rw [hplaces, Label.inscribeAll, List.foldl_cons, List.foldl_nil, Label.inscribe,
        Expression.evaluate, valueText, hvalues, hcontent, hattributes]
      rfl
    · have hplaces : locationsOf (markPlaces ctx (x, .text n)) name = [] := by
        simp [locationsOf, markPlaces, hn]
      rw [hplaces, Label.inscribeAll, List.foldl_nil, hk, markLabel, markLabel, hsame n hn]
  | attributes l =>
    have hcontent : (k.inscribeAll name values (locationsOf (attributePlaces ctx x
        l.attributes.entries) name)).content = l.content := by
      have h := congrArg Label.content hk
      refine (Label.content_inscribeAll fun r hr => ?_).trans h
      obtain ⟨b, j, -, -, -, rfl⟩ := ctx.mem_attributeLocations.mp hr
      exact ⟨x, j, rfl⟩
    rw [markPlaces, markLabel, Label.bare, Label.bare, shownLabel, hcontent,
      ← ctx.entries_inscribeAll_attributes hk hvalues hsame hname]

end CompileContext

end LiveMarkup
