import LiveMarkup.Proofs.Store.HeldValues
import LiveMarkup.Proofs.Store.Scope
import LiveMarkup.Proofs.Picture.Deferral
import LiveMarkup.Proofs.Picture.Extension
import LiveMarkup.Proofs.Picture.Orders

/-!
# Properties that are set ahead

A value that is held for a property is written when an extension brings the property. So it can be set
ahead of the extension as well as afterwards, unless the template has something below the property that is
not held alike, or something that is held for another property is in the same place.
-/

namespace LiveMarkup

open Document

namespace Instance

variable {s : Stage} {i : Instance} {b : Blueprint} {name n : String} {v : Json}

/-! ### The properties of a template next to others -/

section Fitted

variable {d : Document} {c : Shape} {tas : List (String × Accessor Instance)}

/-- What the instance has for the properties of a copy when it is bound to that as well. -/
def fitted (i : Instance) (tas : List (String × Accessor Instance)) :
    List (String × Accessor Instance) :=
  tas.map fun e => (e.1, i.joined e.1 e.2)

theorem map_fst_fitted (i : Instance) (tas : List (String × Accessor Instance)) :
    (i.fitted tas).map (·.1) = tas.map (·.1) := by
  rw [fitted, List.map_map]
  rfl

theorem get?_fitted (hn : (tas.map (·.1)).Nodup) {a : Accessor Instance} (h : (n, a) ∈ i.fitted tas) :
    (i.joinedAll tas).accessors.get? n = some a := by
  obtain ⟨e, he, hea⟩ := List.mem_map.mp h
  obtain ⟨rfl, rfl⟩ := Prod.mk.inj hea
  exact get?_joinedAll_of_mem hn he

theorem exists_of_bound_mem_fitted {ls : List BoundLocation} (h : (n, .bound ls) ∈ i.fitted tas) :
    ∃ more, (n, .bound more) ∈ tas ∧ ∀ r ∈ ls, r ∈ more ∨
      ∃ old, i.accessors.get? n = some (.bound old) ∧ r ∈ old := by
  obtain ⟨⟨m, a⟩, he, hea⟩ := List.mem_map.mp h
  obtain ⟨rfl, hjoin⟩ := Prod.mk.inj hea
  rcases i.joined_cases m a with ⟨more, old, rfl, hget, hjoined⟩ | hjoined
  · obtain rfl := Accessor.bound.inj (hjoined.symm.trans hjoin)
    refine ⟨more, he, fun r hr => ?_⟩
    exact (List.mem_append.mp hr).symm.imp_right fun hr => ⟨old, hget, hr⟩
  · obtain rfl : a = .bound ls := hjoined.symm.trans hjoin
    exact ⟨ls, he, fun r hr => .inl hr⟩

theorem mem_of_iterating_mem_fitted {a : NodeId} {view : Blueprint} {cs : List Instance}
    (h : (n, .iterating a view cs) ∈ i.fitted tas) : (n, .iterating a view cs) ∈ tas := by
  obtain ⟨⟨m, a⟩, he, hea⟩ := List.mem_map.mp h
  obtain ⟨rfl, hjoin⟩ := Prod.mk.inj hea
  exact eq_of_joined_eq_iterating hjoin ▸ he

theorem mem_fitted_of_undefined {a : Accessor Instance} (hn : i.accessors.get? n = none)
    (h : (n, a) ∈ tas) : (n, a) ∈ i.fitted tas := by
  refine List.mem_map.mpr ⟨_, h, ?_⟩
  unfold joined
  dsimp only
  rw [hn]
  split
  · rename_i hget
    cases hget
  · rfl

end Fitted

/-! ### What does not meet -/

structure PlacedApart (d : Document) (i : Instance) (n m : String) : Prop where
  anchors : i.anchor? n = none ∨ i.anchor? n ≠ i.anchor? m
  controls : ∀ r ∈ i.locations n, ∀ r' ∈ i.locations m, r.place.owner = r'.place.owner →
    d.isLivePlace r.place = true → d.isLivePlace r'.place = true → r.place = r'.place

instance (d : Document) (i : Instance) (n m : String) : Decidable (i.PlacedApart d n m) :=
  decidable_of_iff (_ ∧ _) ⟨fun h => ⟨h.1, h.2⟩, fun h => ⟨h.anchors, h.controls⟩⟩

/-- The property meets none that the template has behind it and that has a value. -/
def PlacedBehind (s : Stage) (i : Instance) (b : Blueprint) (name : String) (v : Json) (n : String) :
    Prop :=
  ∀ e ∈ (i.withValue name v).heldValues b, [n, e.1].Sublist (b.exposures.map Exposure.name) →
    (i.install s b).2.PlacedApart (i.install s b).1.document n e.1

instance (s : Stage) (i : Instance) (b : Blueprint) (name : String) (v : Json) (n : String) :
    Decidable (i.PlacedBehind s b name v n) :=
  inferInstanceAs (Decidable (∀ e ∈ _, _ → _))

/-- A set of `name` behind the extension assigns `w` to the property `n` below it, and nothing is seen of
that. -/
inductive Unseen (s : Stage) (i : Instance) (b : Blueprint) (name : String) (v : Json) (n : String)
    (w : Json) : Prop where
  | refused (region : (i.install s b).2.anchor? n ≠ none) (other : ∀ items, w ≠ .array items)
  /-- The instance holds just that, or what has the same text in locations. -/
  | held (u : Json) (held : i.get? n = some u)
      (alike : w = u ∨ (i.install s b).2.anchor? n = none ∧ w.toText = u.toText)
      (behind : i.PlacedBehind s b name v n)
  /-- The instance holds nothing, and each location is empty or one of a property that has a value. -/
  | empty (unheld : i.get? n = none) (leaf : (i.install s b).2.anchor? n = none) (text : w.toText = "")
      (apart : ∀ e ∈ (i.withValue name v).heldValues b,
        (i.install s b).2.PlacedApart (i.install s b).1.document n e.1)
      (locations : ∀ r ∈ (i.install s b).2.locations n,
        (∃ e ∈ (i.withValue name v).heldValues b, r ∈ (i.install s b).2.locations e.1) ∨
          name ∉ r.expression.reads n ∧ r.expression.evaluate n i.values = "" ∧
            (i.install s b).1.document.textAt? r.place = some "")

/-- A property that the instance does not have can be set before an extension as well as after it. -/
structure Awaits (s : Stage) (i : Instance) (b : Blueprint) (name : String) (v : Json) : Prop where
  parts : ∀ n ∈ b.exposures.map Exposure.name, ∀ path ∈ pathBelow? name n,
    i.Unseen s b name v n ((v.resolve? path).getD .null)
  /-- If it drives a region, then items do not give way to something that is no array. -/
  arrays : (i.install s b).2.anchor? name = none ∨ (∃ items, v = .array items) ∨
    ∀ items, i.get? name ≠ some (.array items)
  /-- If it drives a region, then no text that is written for a value that is held reads it. -/
  texts : (i.install s b).2.anchor? name = none ∨ ∀ e ∈ i.heldValues b,
    ∀ r ∈ (i.install s b).2.locations e.1, name ∉ r.expression.reads e.1
  behind : i.PlacedBehind s b name v name

/-- A copy of the template is bound to the instance, which has nothing of the copy, nor the property or
one below it. The picture is that of the tree before anything is assigned. -/
structure Awaited (s : Stage) (i : Instance) (b : Blueprint) (name : String) (d : Document) (c : Shape)
    (tas : List (String × Accessor Instance)) (p : Picture) : Prop where
  bound : b.Bound d c tas
  joined : (i.install s b).2 = i.joinedAll tas
  undefined : ∀ n, Concerns name n → i.accessors.get? n = none
  scopes : i.Scoped
  fresh : ∀ n old, i.accessors.get? n = some (.bound old) → ∀ r ∈ old, r.place.owner ∉ c.ids
  labels : ∀ e ∈ i.fitted tas, ∀ x ∈ e.2.handles,
    (i.install s b).1.document.label? x = some (p.label x)
  values : p.value = i.get?
  bare : ∀ x, p.hung x = []

namespace Awaits

variable {d : Document} {c : Shape} {tas : List (String × Accessor Instance)} {p : Picture}
  {grow : Blueprint → Json → Option Tree} {before after front back : List (String × Json)}
  {former : Option Json} (h : i.Awaits s b name v) (ha : Awaited s i b name d c tas p)

section

include ha

omit h in
theorem names_fitted : ((i.fitted tas).map (·.1)).Nodup :=
  (map_fst_fitted i tas).symm ▸ ha.bound.names

omit h in
theorem exposed {a : Accessor Instance} (hmem : (n, a) ∈ i.fitted tas) :
    n ∈ b.exposures.map Exposure.name := by
  rw [← ha.bound.map_fst, ← map_fst_fitted i tas]
  exact List.mem_map_of_mem hmem

omit h in
theorem anchor?_fitted {a : NodeId} {view : Blueprint} {cs : List Instance}
    (hmem : (n, .iterating a view cs) ∈ i.fitted tas) : (i.install s b).2.anchor? n = some a :=
  anchor?_eq_some.mpr ⟨view, cs, ha.joined ▸ get?_fitted ha.bound.names hmem⟩

omit h in
theorem locations_fitted {ls : List BoundLocation} (hmem : (n, .bound ls) ∈ i.fitted tas) :
    (i.install s b).2.locations n = ls :=
  locations_of_get? (ha.joined ▸ get?_fitted ha.bound.names hmem)

omit h in
theorem fitted_of_exposed (hn : n ∈ b.exposures.map Exposure.name) : ∃ a, (n, a) ∈ i.fitted tas := by
  rw [← ha.bound.map_fst, ← map_fst_fitted i tas] at hn
  obtain ⟨⟨n, a⟩, hmem, rfl⟩ := List.mem_map.mp hn
  exact ⟨a, hmem⟩

omit h in
theorem bound_of_leaf (hn : n ∈ b.exposures.map Exposure.name)
    (leaf : (i.install s b).2.anchor? n = none) : ∃ ls, (n, .bound ls) ∈ i.fitted tas := by
  obtain ⟨a, hmem⟩ := fitted_of_exposed ha hn
  cases a with
  | bound ls => exact ⟨ls, hmem⟩
  | iterating a view cs =>
    rw [anchor?_fitted ha hmem] at leaf
    cases leaf

omit h in
theorem bound_of_location (hn : n ∈ b.exposures.map Exposure.name) {r : BoundLocation}
    (hr : r ∈ (i.install s b).2.locations n) : ∃ ls, (n, .bound ls) ∈ i.fitted tas ∧ r ∈ ls := by
  obtain ⟨a, hmem⟩ := fitted_of_exposed ha hn
  cases a with
  | bound ls => exact ⟨ls, hmem, locations_fitted ha hmem ▸ hr⟩
  | iterating a view cs =>
    rw [locations, ha.joined, get?_fitted ha.bound.names hmem] at hr
    cases hr

omit h in
theorem changeOf_of_refused (hn : n ∈ b.exposures.map Exposure.name)
    (region : (i.install s b).2.anchor? n ≠ none) {w : Json} (other : ∀ items, w ≠ .array items) :
    changeOf grow (i.fitted tas) n w = .pass := by
  obtain ⟨a, hmem⟩ := fitted_of_exposed ha hn
  have hget := (Table.get?_eq_some_iff (t := ⟨i.fitted tas⟩) (names_fitted ha)).mpr hmem
  cases a with
  | bound ls =>
    refine absurd ?_ region
    rw [anchor?, ha.joined, get?_fitted ha.bound.names hmem]
  | iterating a view cs =>
    rw [changeOf, hget]
    dsimp only
    split
    · exact absurd rfl (other _)
    · rfl

omit h in
/-- The property has its locations in the copy only, so one that writes in the same place shares them. -/
theorem places_fitted (hn : Concerns name n) {m : String}
    (hcontrols : (i.install s b).2.PlacedApart (i.install s b).1.document n m)
    {ls ls' : List BoundLocation} (hls : (n, .bound ls) ∈ i.fitted tas)
    (hls' : (m, .bound ls') ∈ i.fitted tas) {r r' : BoundLocation} (hr : r ∈ ls) (hr' : r' ∈ ls')
    (howner : r.place.owner = r'.place.owner)
    (hclash : (p.label r.place.owner).Clash r.place r'.place) :
    r = r' ∧ (r.expression = .wholeText → n = m) := by
  obtain ⟨more, hmore, hall⟩ := exists_of_bound_mem_fitted hls
  obtain ⟨more', hmore', hall'⟩ := exists_of_bound_mem_fitted hls'
  have hrm : r ∈ more := (hall r hr).resolve_right fun ⟨old, hold, _⟩ => by
    rw [ha.undefined n hn] at hold
    cases hold
  have hrc : r.place.owner ∈ c.ids := ha.bound.handles _ hmore _ (List.mem_map_of_mem hrm)
  have hrm' : r' ∈ more' := (hall' r' hr').resolve_right fun ⟨old, hold, hmem⟩ =>
    ha.fresh _ _ hold r' hmem (howner ▸ hrc)
  have hlabel := ha.labels _ hls _ (List.mem_map_of_mem hr)
  have hplace : r.place = r'.place := by
    rcases isLivePlace_of_clash hclash hlabel (howner ▸ hlabel) with hplace | ⟨hlive, hlive'⟩
    · exact hplace
    · refine hcontrols.controls r ?_ r' ?_ howner hlive hlive'
      · rwa [locations_fitted ha hls]
      · rwa [locations_fitted ha hls']
  exact ha.bound.wired.apart _ _ _ _ _ _ hmore hrm hmore' hrm' hplace

omit h in
theorem anchors_fitted {m : String}
    (hanchors : (i.install s b).2.PlacedApart (i.install s b).1.document n m) {a a' : NodeId}
    {view view' : Blueprint} {cs cs' : List Instance} (hmem : (n, .iterating a view cs) ∈ i.fitted tas)
    (hmem' : (m, .iterating a' view' cs') ∈ i.fitted tas) : a ≠ a' := by
  have hanchor := anchor?_fitted ha hmem
  rcases hanchors.anchors with hnone | hne
  · rw [hanchor] at hnone
    cases hnone
  · rintro rfl
    exact hne (hanchor.trans (anchor?_fitted ha hmem').symm)

include h

theorem texts_fitted {e : String × Json} (he : e ∈ i.heldValues b)
    {ls : List BoundLocation} (hls : (e.1, .bound ls) ∈ i.fitted tas) {r : BoundLocation} (hr : r ∈ ls)
    (hread : name ∈ r.expression.reads e.1) :
    ∃ ls', (name, .bound ls') ∈ i.fitted tas ∧ r ∈ ls' := by
  obtain ⟨more, hmore, hall⟩ := exists_of_bound_mem_fitted hls
  have hnone := ha.undefined name (.inl rfl)
  rcases hall r hr with hr' | ⟨old, hold, hr'⟩
  · obtain ⟨⟨n, a⟩, hmem, rfl⟩ := List.mem_map.mp (ha.bound.closed _ _ _ _ hmore hr' hread)
    have hfitted := mem_fitted_of_undefined hnone hmem
    cases a with
    | bound ls' => exact ⟨ls', hfitted, ha.bound.wired.shared _ _ _ _ _ hmore hr' hmem hread⟩
    | iterating a view cs =>
      rcases h.texts with hanchor | hreads
      · rw [anchor?_fitted ha hfitted] at hanchor
        cases hanchor
      · exact absurd hread (hreads e he r ((locations_fitted ha hls).symm ▸ hr))
  · exact absurd hnone fun hnone => Table.get?_eq_none_iff.mp hnone (ha.scopes.own hold hr' hread)

theorem defers (hsplits : i.HeldSplit b name v before after former)
    (success : fails grow (i.fitted tas) name v = false) :
    Defers grow (i.fitted tas) p before after former name v where
  names := hsplits.names
  held e he := by
    rw [ha.values]
    exact (mem_heldValues (hsplits.mem_heldValues he)).2
  kept u hu := by
    rw [ha.values]
    exact hsplits.former u hu
  success := success
  texts := .inr fun e he ls hls r hr hread => h.texts_fitted ha (hsplits.mem_heldValues he) hls hr hread
  places ls hls r hr e he ls' hls' r' hr' := by
    obtain ⟨hheld, hbehind⟩ := hsplits.behind rfl (exposed ha hls) he (exposed ha hls')
    exact places_fitted ha (.inl rfl) (h.behind e hheld hbehind) hls hls' hr hr'
  anchors e he a view cs a' view' cs' hmem hmem' := by
    obtain ⟨hheld, hbehind⟩ := hsplits.behind rfl (exposed ha hmem) he (exposed ha hmem')
    exact anchors_fitted ha (h.behind e hheld hbehind) hmem hmem'
  arrays a view cs hmem := by
    rcases h.arrays with hnone | hitems | hother
    · rw [anchor?_fitted ha hmem] at hnone
      cases hnone
    · exact .inl hitems
    · exact .inr fun items hitems => hother items (hsplits.former _ hitems)

theorem defers_below (hsplits : i.HeldSplit b name v before after former)
    (success : fails grow (i.fitted tas) name v = false) {u : Json} (hn : Concerns name n)
    (hbehind : i.PlacedBehind s b name v n)
    (hsplit : before ++ (name, v) :: after = front ++ (n, u) :: back)
    (hsuccess : fails grow (i.fitted tas) n u = false) :
    Defers grow (i.fitted tas) (p.withValue name v) front back (some u) n u where
  names := hsplit ▸ hsplits.names
  held e he := by
    refine (h.defers ha hsplits success).held_turn (hsplit ▸ ?_)
    exact List.mem_append.mpr ((List.mem_append.mp he).imp_right (List.mem_cons_of_mem _))
  kept w hw := by
    obtain rfl := Option.some.inj hw
    exact (h.defers ha hsplits success).held_turn (e := (n, u)) (hsplit ▸ by simp)
  success := hsuccess
  texts := .inl ((h.defers ha hsplits success).held_turn (e := (n, u)) (hsplit ▸ by simp))
  places ls hls r hr e he ls' hls' r' hr' := by
    obtain ⟨hheld, hlater⟩ := hsplits.behind hsplit (exposed ha hls) he (exposed ha hls')
    exact places_fitted ha hn (hbehind e hheld hlater) hls hls' hr hr'
  anchors e he a view cs a' view' cs' hmem hmem' := by
    obtain ⟨hheld, hlater⟩ := hsplits.behind hsplit (exposed ha hmem) he (exposed ha hmem')
    exact anchors_fitted ha (hbehind e hheld hlater) hmem hmem'
  arrays a view cs hmem := by
    by_cases hitems : ∃ items, u = .array items
    · exact .inl hitems
    · exact .inr fun items hu => hitems ⟨items, Option.some.inj hu⟩

theorem showsAs_of_held (hsplits : i.HeldSplit b name v before after former)
    (success : fails grow (i.fitted tas) name v = false) (hn : n ∈ b.exposures.map Exposure.name)
    (hconcerns : Concerns name n) (hne : n ≠ name) {u w : Json} (held : i.get? n = some u)
    (alike : w = u ∨ (i.install s b).2.anchor? n = none ∧ w.toText = u.toText)
    (behind : i.PlacedBehind s b name v n) (hsuccess : fails grow (i.fitted tas) n w = false) :
    ((changeOf grow (i.fitted tas) n w).apply
      (atEnd grow (i.fitted tas) p before after former name v)).ShowsAs
        (atEnd grow (i.fitted tas) p before after former name v) := by
  have hdefers := h.defers ha hsplits success
  have hnames := names_fitted ha
  have hheld : (n, u) ∈ i.heldValues b := (mem_heldValues_iff hn).mpr held
  rw [hsplits.held] at hheld
  have hothers := (Defers.mem_values hheld).resolve_right hne
  have hmem : (n, u) ∈ before ++ (name, v) :: after :=
    List.mem_append.mpr ((List.mem_append.mp hothers).imp_right (List.mem_cons_of_mem _))
  obtain ⟨front, back, hsplit⟩ := List.append_of_mem hmem
  have again := fun hu => (h.defers_below ha hsplits success hconcerns behind hsplit hu).apply_again
    hnames rfl ha.bare
  rw [← hsplit] at again
  rcases alike with rfl | ⟨leaf, htext⟩
  · rw [hdefers.apply_late hnames ha.bare hothers (again hsuccess)]
    exact .refl _
  · obtain ⟨ls, hls⟩ := bound_of_leaf ha hn leaf
    refine hdefers.showsAs_alike hnames ha.bare hothers hls htext (again ?_)
    rw [fails, (Table.get?_eq_some_iff (t := ⟨i.fitted tas⟩) hnames).mpr hls]

theorem showsAs_of_unheld (hsplits : i.HeldSplit b name v before after former)
    (success : fails grow (i.fitted tas) name v = false) (hn : n ∈ b.exposures.map Exposure.name)
    (hconcerns : Concerns name n) (hne : n ≠ name) {w : Json} (unheld : i.get? n = none)
    (leaf : (i.install s b).2.anchor? n = none) (text : w.toText = "")
    (apart : ∀ e ∈ (i.withValue name v).heldValues b,
      (i.install s b).2.PlacedApart (i.install s b).1.document n e.1)
    (locations : ∀ r ∈ (i.install s b).2.locations n,
      (∃ e ∈ (i.withValue name v).heldValues b, r ∈ (i.install s b).2.locations e.1) ∨
        name ∉ r.expression.reads n ∧ r.expression.evaluate n i.values = "" ∧
          (i.install s b).1.document.textAt? r.place = some "") :
    ((changeOf grow (i.fitted tas) n w).apply
      (atEnd grow (i.fitted tas) p before after former name v)).ShowsAs
        (atEnd grow (i.fitted tas) p before after former name v) := by
  obtain ⟨ls, hls⟩ := bound_of_leaf ha hn leaf
  -- What is written in turn and is a property of the template has a value.
  have hexposed : ∀ {e ls'}, e ∈ before ++ (name, v) :: after → (e.1, .bound ls') ∈ i.fitted tas →
      e ∈ (i.withValue name v).heldValues b := fun he hls' =>
    hsplits.exposed_sublist.subset (List.mem_filter.mpr ⟨he, decide_eq_true (exposed ha hls')⟩)
  refine (h.defers ha hsplits success).showsAs_empty (names_fitted ha) hls hne (ha.values ▸ unheld) text
    (fun r hr e he ls' hls' r' hr' => ?_) fun r hr => ?_
  · exact places_fitted ha hconcerns (apart e (hexposed he hls')) hls hls' hr hr'
  · rw [← locations_fitted ha hls] at hr
    refine (locations r hr).imp ?_ ?_
    · rintro ⟨e, he, hr'⟩
      have hn' := (names_heldValues_sublist _ b).subset (List.mem_map_of_mem he)
      obtain ⟨ls', hls', hr'⟩ := bound_of_location ha hn' hr'
      exact ⟨e, hsplits.mem_of_held he, ls', hls', hr'⟩
    · rintro ⟨hread, hempty, hlayout⟩
      have hlabel := ha.labels _ hls _ (List.mem_map_of_mem (locations_fitted ha hls ▸ hr))
      refine ⟨hread, ?_, ?_⟩
      · rw [ha.values, ← hempty, Expression.evaluate_eq_textOf]
        rfl
      · rw [textAt?_eq, hlabel] at hlayout
        exact hlayout

/-- The part that a property below gets behind the extension is not seen. -/
theorem showsAs_part (hsplits : i.HeldSplit b name v before after former)
    (success : fails grow (i.fitted tas) name v = false) (hn : n ∈ b.exposures.map Exposure.name)
    (hconcerns : Concerns name n) (hne : n ≠ name) {w : Json} (hunseen : i.Unseen s b name v n w)
    (hsuccess : fails grow (i.fitted tas) n w = false) :
    ((changeOf grow (i.fitted tas) n w).apply
      (atEnd grow (i.fitted tas) p before after former name v)).ShowsAs
        (atEnd grow (i.fitted tas) p before after former name v) := by
  cases hunseen with
  | refused region other =>
    rw [changeOf_of_refused ha hn region other]
    exact .refl _
  | held u held alike behind =>
    exact h.showsAs_of_held ha hsplits success hn hconcerns hne held alike behind hsuccess
  | empty unheld leaf text apart locations =>
    exact h.showsAs_of_unheld ha hsplits success hn hconcerns hne unheld leaf text apart locations

end

end Awaits

/-! ### Extensions before and after -/

theorem treeOf_apply_inscribe_nil (p : Picture) (n : String) (v : Json) (t : Shape) :
    ((Change.inscribe n v []).apply p).treeOf t = p.treeOf t :=
  Picture.treeOf_congr (fun _ _ => rfl) fun _ _ => rfl

section Pictures

variable {base : Document} {c t : Shape} {tas : List (String × Accessor Instance)} {j : Instance}
  {way : List (String × Nat)} {d : Document}

section Owned

variable (howned : Owned base (i.install s b).1.document [t] [j])
  (hg : j.descend? way = some (i.install s b).2) (hbound : b.Bound d c tas)
  (hjoined : (i.install s b).2 = i.joinedAll tas)
include howned hg hbound hjoined

theorem handles_fitted {e : String × Accessor Instance} (he : e ∈ i.fitted tas) :
    ∀ x ∈ e.2.handles, x ∈ t.ids := by
  intro x hx
  have hembedded := ((howned.embedded j List.mem_cons_self).descend? hg).1
  have hget := get?_fitted hbound.names he
  rw [← hjoined] at hget
  exact howned.mem_ids_of_own hg (hembedded.own_of_get? hget x hx)

/-- The instance over the whole tree, with the properties of the template only. -/
theorem pictureOf_fitted : PictureOf base (i.fitted tas) t (i.install s b).1.document
    { (i.install s b).2 with root := t.id, accessors := ⟨i.fitted tas⟩ }
    ⟨(i.install s b).1.document.labelAt, fun _ => [], i.get?⟩ := by
  have hlayout : ({ (i.install s b).2 with root := t.id, accessors := ⟨i.fitted tas⟩ } : Instance).Layout
      base (i.install s b).1.document (i.fitted tas) t fun _ => [] := by
    refine layout_of_handles howned.grown rfl rfl (fun e he => ?_) fun e he =>
      handles_fitted howned hg hbound hjoined he
    obtain ⟨e', he', rfl⟩ := List.mem_map.mp he
    exact children_joined (hbound.childless e' he')
  have hvalues : (i.install s b).2.values.get? = i.get? :=
    congrArg Table.get? (equipped_install s i b).values
  have hpicture := hlayout.pictureOf
  dsimp only at hpicture
  rwa [hvalues] at hpicture

end Owned

theorem owner_not_mem_copy (howned : Owned base s.document [t] [j]) (hg : j.descend? way = some i)
    {tree : Tree} (hc : s.document.Copies d c tree) {old : List BoundLocation}
    (hget : i.accessors.get? n = some (.bound old)) {r : BoundLocation} (hr : r ∈ old) :
    r.place.owner ∉ c.ids := by
  intro hmem
  have hembedded := ((howned.embedded j List.mem_cons_self).descend? hg).1
  have hown := howned.mem_ids_of_own hg
    (hembedded.own_of_get? hget r.place.owner (List.mem_map_of_mem hr))
  obtain ⟨m, hm⟩ := howned.grown.head_holds.live _ hown
  rw [hc.fresh _ hmem] at hm
  cases hm

theorem agreeOn_fitted (hbound : b.Bound d c tas) (hjoined : (i.install s b).2 = i.joinedAll tas)
    (undefined : i.accessors.get? name = none) (t : Shape) :
    AgreeOn (name :: b.exposures.map Exposure.name) (i.install s b).2
      { (i.install s b).2 with root := t.id, accessors := ⟨i.fitted tas⟩ } := by
  refine ⟨rfl, fun n hn => ?_⟩
  by_cases hmem : n ∈ (i.fitted tas).map (·.1)
  · obtain ⟨⟨n, a⟩, ha, rfl⟩ := List.mem_map.mp hmem
    rw [hjoined, get?_fitted hbound.names ha]
    exact (Table.get?_eq_some_iff (by rw [Table.names, map_fst_fitted]; exact hbound.names)).mpr ha
  · have hnone : Table.get? ⟨i.fitted tas⟩ n = none := Table.get?_eq_none_iff.mpr hmem
    rw [map_fst_fitted, hbound.map_fst] at hmem
    obtain rfl : n = name := (List.mem_cons.mp hn).resolve_right hmem
    rw [← hbound.map_fst] at hmem
    rw [hjoined, get?_joinedAll_of_not_mem hmem, undefined]
    exact hnone

theorem PictureOf.seen_within {as : List (String × Accessor Instance)} {k : Instance} {p : Picture}
    (h : PictureOf base as t d k p) {w : Shape} (hw : w.Within t) (hroot : i.root = w.id) :
    i.render d = (p.treeOf w).render ∧
      (d.descendants i.root).map d.controlValue? = (p.treeOf w).controls := by
  refine ⟨?_, hroot ▸ h.controls_within hw⟩
  rw [Instance.render, Document.render, hroot, h.tree?_within hw]
  rfl

end Pictures

theorem Awaits.mem_dependents (h : i.Awaits s b name v) (below : i.namesBelow name = [])
    {e : String × Json} (he : e ∈ (i.extend s b).1.self.dependents name v) :
    e.1 ∈ b.exposures.map Exposure.name ∧ Concerns name e.1 ∧ e.1 ≠ name ∧
      i.Unseen s b name v e.1 e.2 := by
  obtain ⟨hothers, -⟩ := extend_keeps s i b
  obtain ⟨n, hn, hmap⟩ := List.mem_filterMap.mp he
  obtain ⟨path, hpath, rfl⟩ := Option.map_eq_some_iff.mp hmap
  have hbelow : (pathBelow? name n).isSome = true := by
    rw [hpath]
    rfl
  have hexposed : n ∈ b.exposures.map Exposure.name := by
    by_contra hother
    have hmem : n ∈ i.accessors.names := by
      by_contra hnot
      exact Table.get?_eq_none_iff.mp ((hothers n hother).trans (Table.get?_eq_none_iff.mpr hnot)) hn
    have hnames : n ∈ i.namesBelow name := List.mem_filter.mpr ⟨hmem, hbelow⟩
    rw [below] at hnames
    cases hnames
  refine ⟨hexposed, .inr hbelow, ?_, h.parts n hexposed path hpath⟩
  rintro rfl
  rw [pathBelow?, afterStart?_self] at hbelow
  cases hbelow

/-- The property takes the value in its turn or at the end, and those below it take parts behind it. -/
theorem Awaits.seen_eq (h : i.Awaits s b name v) (hb : b.IsCompiled) {d : Document} {c : Shape}
    {tas : List (String × Accessor Instance)} {p : Picture} (ha : Awaited s i b name d c tas p)
    {grow : Blueprint → Json → Option Tree} {more : List (String × Json)}
    (hmore : ∀ e ∈ more, e.1 ∈ b.exposures.map Exposure.name ∧ Concerns name e.1 ∧ e.1 ≠ name ∧
      i.Unseen s b name v e.1 e.2)
    (success : ∀ e ∈ (name, v) :: more, fails grow (i.fitted tas) e.1 e.2 = false) (t : Shape) :
    let q := Change.applyAll (p.withValue name v) (((i.withValue name v).heldValues b).map fun e =>
      changeOf grow (i.fitted tas) e.1 e.2)
    let q' := Change.applyAll p ((i.heldValues b ++ (name, v) :: more).map fun e =>
      changeOf grow (i.fitted tas) e.1 e.2)
    (q.treeOf t).render = (q'.treeOf t).render ∧ (q.treeOf t).controls = (q'.treeOf t).controls := by
  intro q q'
  obtain ⟨before, after, former, hsplits⟩ := exists_heldSplit hb i name v
  have hname := success (name, v) List.mem_cons_self
  -- Without locations the property may as well take the value once more.
  have hahead : q.treeOf t = (inTurn grow (i.fitted tas) p before after name v).treeOf t := by
    rw [inTurn]
    rcases hsplits.ahead with ahead | ⟨hn, ahead⟩
    · rw [← ahead]
    · have hget : Table.get? ⟨i.fitted tas⟩ name = none := by
        rw [Table.get?_eq_none_iff, Table.names, map_fst_fitted, ha.bound.map_fst]
        exact hn
      rw [← ahead, List.map_append, List.map_singleton, Change.applyAll_concat, changeOf, hget]
      exact (treeOf_apply_inscribe_nil _ name v t).symm
  have hlate : q' = Change.applyAll p ((before ++ (former.map (name, ·)).toList ++ after ++
      (name, v) :: more).map fun e => changeOf grow (i.fitted tas) e.1 e.2) := by
    rw [← hsplits.held]
  rw [hahead, hlate]
  refine (h.defers ha hsplits hname).seen_eq (names_fitted ha) ha.bare (fun e he => ?_) t
  obtain ⟨hn, hconcerns, hne, hunseen⟩ := hmore e he
  exact h.showsAs_part ha hsplits hname hn hconcerns hne hunseen (success e (List.mem_cons_of_mem _ he))

/-- The copy of a template in the tree of an instance, and the tree with the properties of the template
as they are before they are assigned anything. -/
theorem exists_awaited (h : Store.Reached s.document i) (hb : b.IsCompiled)
    (undefined : i.hasProperty name = false) (below : i.namesBelow name = []) :
    ∃ base t d c tas p, Awaited s i b name d c tas p ∧ i.root ∈ t.ids ∧
      PictureOf base (i.fitted tas) t (i.install s b).1.document
        { (i.install s b).2 with root := t.id, accessors := ⟨i.fitted tas⟩ } p := by
  obtain ⟨S, watch, e, k, admits, hlock⟩ := h.exists_lockstepAt
  have hlock : LockstepAt S watch s.document (⟨e, []⟩ : Stage).document i k := hlock
  have hregions : ∀ name region, (name, region) ∈ b.regions.entries → S.admits region.view :=
    fun name region hregion => admits ▸ hb.region hregion
  obtain ⟨c, tas, hc, -, hbound, hjoined⟩ := hlock.exists_joined hb hregions
  obtain ⟨_, _, -, -, hinstalled, -⟩ := hlock.install hb hregions
  obtain ⟨_, t, j, hg, renamed, -⟩ := hinstalled.exists_state
  obtain ⟨_, _, _, hg₀, renamed₀, -⟩ := hlock.exists_state
  have hpicture := pictureOf_fitted renamed.left hg hbound hjoined
  refine ⟨_, t, _, c, tas, _, ⟨hbound, hjoined, fun n hn => ?_, h.scoped, ?_, ?_, rfl, fun x => rfl⟩,
    (equipped_install s i b).root ▸ renamed.left.mem_ids_of_own hg .refl, hpicture⟩
  · rcases hn with rfl | hn
    · exact get?_of_undefined undefined
    · refine Table.get?_eq_none_iff.mpr fun hmem => ?_
      have hnames : n ∈ i.namesBelow name := List.mem_filter.mpr ⟨hmem, hn⟩
      rw [below] at hnames
      cases hnames
  · exact fun n old hold r hr => owner_not_mem_copy renamed₀.left hg₀ hc hold hr
  · exact fun e he x hx => hpicture.labels x (handles_fitted renamed.left hg hbound hjoined he x hx)

/-- What is seen of an instance after a set of a property that it did not have and an extension is the
same in either order. -/
theorem seen_extend_set (h : Store.Reached s.document i) (hb : b.IsCompiled)
    (undefined : i.hasProperty name = false) (below : i.namesBelow name = [])
    (awaits : i.Awaits s b name v)
    (success : ((i.set s name v).self.extend (i.set s name v).stage b).1.error = none)
    (success₁ : (i.extend s b).1.error = none)
    (success₂ : ((i.extend s b).1.self.set (i.extend s b).1.stage name v).error = none) :
    let o := ((i.set s name v).self.extend (i.set s name v).stage b).1
    let o' := (i.extend s b).1.self.set (i.extend s b).1.stage name v
    o.self.render o.stage.document = o'.self.render o'.stage.document ∧
      (o.stage.document.descendants o.self.root).map o.stage.document.controlValue? =
        (o'.stage.document.descendants o'.self.root).map o'.stage.document.controlValue? := by
  rw [set_extend_eq s b undefined below v] at success ⊢
  rw [extend_set_eq success₁ name v] at success₂ ⊢
  have hmore : ∀ e ∈ (i.extend s b).1.self.dependents name v, _ := fun e =>
    awaits.mem_dependents (e := e) below
  generalize (i.extend s b).1.self.dependents name v = more at success₂ hmore ⊢
  obtain ⟨_, t, _, c, tas, p, ha, hroot, hpicture⟩ := exists_awaited (b := b) h hb undefined below
  have hagree := agreeOn_fitted ha.bound ha.joined (ha.undefined name (.inl rfl)) t
  have hgrows : ∀ n a view, (n, .iterating a view []) ∈ i.fitted tas →
      (build i.registry).Grows view (alone i.registry view) := fun n a view hmem =>
    build_grows i.registry (ha.bound.isCompiled hb n a view (mem_of_iterating_mem_fitted hmem))
  have hheld : ∀ i : Instance, (i.heldValues b).map (·.1) ⊆ name :: b.exposures.map Exposure.name :=
    fun i n hn => List.mem_cons_of_mem _ ((i.nodup_heldValues hb).2 hn)
  have hlate : (i.heldValues b ++ (name, v) :: more).map (·.1) ⊆
      name :: b.exposures.map Exposure.name := by
    rw [List.map_append, List.map_cons, List.append_subset, List.cons_subset]
    refine ⟨hheld i, List.mem_cons_self, fun n hn => ?_⟩
    obtain ⟨e, he, rfl⟩ := List.mem_map.mp hn
    exact List.mem_cons_of_mem _ (hmore e he).1
  -- Both runs are assignments to the properties of the template, from the same picture on.
  obtain ⟨⟨w, hfirst⟩, -⟩ := (hagree.withValue name v).pictureOf_assignAll hgrows
    (hpicture.withValue name v) (hheld _) success
  obtain ⟨⟨w', hsecond⟩, hsuccess⟩ := hagree.pictureOf_assignAll hgrows hpicture hlate success₂
  obtain ⟨u, hu, hid⟩ := Shape.exists_within hroot
  obtain ⟨hmarkup, hvalues⟩ := awaits.seen_eq hb ha hmore
    (fun e he => hsuccess e (List.mem_append_right _ he)) u
  have hself : ∀ (k : Instance) (values : List (String × Json)), k.root = (i.install s b).2.root →
      (assignAllWith (build i.registry) (i.install s b).1 k values).self.root = u.id := by
    intro k values hk
    rw [(confined_assignAllWith _ _ k values).root, hk, (equipped_install s i b).root, hid]
  obtain ⟨hrender, hcontrols⟩ := hfirst.seen_within hu
    (hself ((i.install s b).2.withValue name v) ((i.withValue name v).heldValues b) rfl)
  obtain ⟨hrender', hcontrols'⟩ := hsecond.seen_within hu
    (hself (i.install s b).2 (i.heldValues b ++ (name, v) :: more) rfl)
  exact ⟨hrender.trans (hmarkup.trans hrender'.symm), hcontrols.trans (hvalues.trans hcontrols'.symm)⟩

end Instance

namespace Store

def isArray : Json → Bool
  | .array _ => true
  | _ => false

/-- A template comes to a host that holds values, and one more property is set. -/
structure Scenario where
  text : String
  held : List (String × Json)
  name : String
  value : Json

namespace Scenario

variable (c : Scenario)

def acts : List Act :=
  .host "card" .standard (.node (.element "section") [.node (.element "p") []]) "Component" ::
    c.held.map fun e => .ask "card" [] (.set e.1 e.2)

def stage : Stage := ⟨(run ⟨emptiedDocument, .empty⟩ c.acts).document, []⟩

def early (i : Instance) (b : Blueprint) : Outcome :=
  ((i.set c.stage c.name c.value).self.extend (i.set c.stage c.name c.value).stage b).1

def late (i : Instance) (b : Blueprint) : Outcome :=
  (i.extend c.stage b).1.self.set (i.extend c.stage b).1.stage c.name c.value

def Proper (i : Instance) (b : Blueprint) : Prop :=
  i.hasProperty c.name = false ∧ i.namesBelow c.name = [] ∧ (c.early i b).error.isNone = true ∧
    (i.extend c.stage b).1.error.isNone = true ∧ (c.late i b).error.isNone = true

instance (i : Instance) (b : Blueprint) : Decidable (c.Proper i b) :=
  inferInstanceAs (Decidable (_ ∧ _))

def SameSight (o o' : Outcome) : Prop :=
  o.self.render o.stage.document = o'.self.render o'.stage.document ∧
    (o.stage.document.descendants o.self.root).map o.stage.document.controlValue? =
      (o'.stage.document.descendants o'.self.root).map o'.stage.document.controlValue?

instance (o o' : Outcome) : Decidable (SameSight o o') :=
  inferInstanceAs (Decidable (_ ∧ _))

def Occurs (P : Instance → Blueprint → Prop) : Prop :=
  ∃ b log i, Blueprint.compile .standard c.text none = (.ok b, log) ∧ b.IsCompiled ∧
    (run ⟨emptiedDocument, .empty⟩ c.acts).find? "card" [] = some i ∧ Reached c.stage.document i ∧
    c.Proper i b ∧ P i b

/-- What is to be seen of the parts of the value, in a form that can be decided. -/
def Unmoved (i : Instance) (b : Blueprint) (n : String) (w : Json) : Prop :=
  let (s, j) := i.install c.stage b
  let held := (i.withValue c.name c.value).heldValues b
  (j.anchor? n ≠ none ∧ isArray w = false) ∨
    (j.anchor? n = none ∧ ((i.get? n).any fun u => w.toText == u.toText) = true ∧
      i.PlacedBehind c.stage b c.name c.value n) ∨
    ((i.get? n).isNone = true ∧ j.anchor? n = none ∧ w.toText = "" ∧
      (∀ e ∈ held, j.PlacedApart s.document n e.1) ∧
      ∀ r ∈ j.locations n, (∃ e ∈ held, r ∈ j.locations e.1) ∨ c.name ∉ r.expression.reads n ∧
        r.expression.evaluate n i.values = "" ∧ s.document.textAt? r.place = some "")

instance (i : Instance) (b : Blueprint) (n : String) (w : Json) : Decidable (c.Unmoved i b n w) :=
  inferInstanceAs (Decidable (_ ∨ _ ∨ _))

def Differs : Prop :=
  c.Occurs fun i b => ¬ SameSight (c.early i b) (c.late i b)

variable {c}

theorem reached {i : Instance} (found : (run ⟨emptiedDocument, .empty⟩ c.acts).find? "card" [] = some i) :
    Reached c.stage.document i := by
  obtain ⟨_, hcopies, -⟩ := tidy_empty.graft (.node (.element "p") [])
  refine ⟨emptiedDocument, c.acts, "card", [], hcopies.tidy.remove 0, fun a ha => ?_, rfl, found⟩
  rcases List.mem_cons.mp ha with rfl | ha
  · trivial
  · obtain ⟨e, -, rfl⟩ := List.mem_map.mp ha
    trivial

theorem occurs {P : Instance → Blueprint → Prop} [∀ i b, Decidable (P i b)]
    (h : (Blueprint.compile .standard c.text none).1.toOption.map (fun b =>
      ((run ⟨emptiedDocument, .empty⟩ c.acts).find? "card" []).any fun i => decide (c.Proper i b ∧ P i b)) =
        some true) : c.Occurs P := by
  obtain ⟨b, log, hcompile, hb, hcheck⟩ := exists_compiled_of_check _ _ h
  rw [Option.any_eq_true] at hcheck
  obtain ⟨i, found, hi⟩ := hcheck
  obtain ⟨hproper, hp⟩ := of_decide_eq_true hi
  exact ⟨b, log, i, hcompile, hb, found, reached found, hproper, hp⟩

theorem Unmoved.unseen {i : Instance} {b : Blueprint} {n : String} {w : Json} (h : c.Unmoved i b n w) :
    i.Unseen c.stage b c.name c.value n w := by
  rcases h with ⟨region, other⟩ | ⟨leaf, held, behind⟩ | ⟨unheld, leaf, text, apart, locations⟩
  · refine .refused region fun items hw => ?_
    rw [hw] at other
    cases other
  · obtain ⟨u, hu, htext⟩ := (Option.any_eq_true _ _).mp held
    exact .held u hu (.inr ⟨leaf, eq_of_beq htext⟩) behind
  · exact .empty (Option.isNone_iff_eq_none.mp unheld) leaf text apart locations

end Scenario

/-- Rows are set for a template that repeats them and reads parts of them in other places. A part in an
attribute stands beside a title that is held, one part is held as an empty text, one is not held at all, and
another region is to repeat a row. -/
def listedRows : Scenario where
  text := "<section class=\"$\x7brows.kind\x7d of $\x7btitle\x7d\">" ++
    "<p>$\x7brows.label\x7d$\x7brows.note\x7d</p><ul><li data-repeat=\"rows\">$\x7b@\x7d</li></ul>" ++
    "<ol><li data-repeat=\"rows.1\">x</li></ol><p><b data-repeat=\"notes\">$\x7b@\x7d</b></p></section>"
  held := [("title", .string "t"), ("rows.label", .string ""), ("notes", .array [.string "e"])]
  name := "rows"
  value := .array [.string "a", .string "b"]

theorem seen_extend_set_listedRows : listedRows.Occurs fun i b =>
    b.exposures.map Exposure.name =
        ["rows.kind", "title", "rows.label", "rows.note", "rows", "rows.1", "notes"] ∧
      (i.heldValues b).map (·.1) = ["title", "rows.label", "notes"] ∧
      Scenario.SameSight (listedRows.early i b) (listedRows.late i b) := by
  obtain ⟨b, log, i, hcompile, hb, found, hreached, hproper, hnames, hheld, hparts, htexts, hbehind⟩ :=
    listedRows.occurs (P := fun i b => b.exposures.map Exposure.name =
        ["rows.kind", "title", "rows.label", "rows.note", "rows", "rows.1", "notes"] ∧
      (i.heldValues b).map (·.1) = ["title", "rows.label", "notes"] ∧
      (∀ n ∈ b.exposures.map Exposure.name, ∀ path ∈ Instance.pathBelow? listedRows.name n,
        listedRows.Unmoved i b n ((listedRows.value.resolve? path).getD .null)) ∧
      (∀ e ∈ i.heldValues b, ∀ r ∈ (i.install listedRows.stage b).2.locations e.1,
        listedRows.name ∉ r.expression.reads e.1) ∧
      i.PlacedBehind listedRows.stage b listedRows.name listedRows.value listedRows.name)
      (by decide +kernel)
  obtain ⟨undefined, below, success, success₁, success₂⟩ := id hproper
  rw [Option.isNone_iff_eq_none] at success success₁ success₂
  have hawaits : i.Awaits listedRows.stage b listedRows.name listedRows.value :=
    ⟨fun n hn path hpath => (hparts n hn path hpath).unseen, .inr (.inl ⟨_, rfl⟩), .inr htexts, hbehind⟩
  exact ⟨b, log, i, hcompile, hb, found, hreached, hproper, hnames, hheld,
    Instance.seen_extend_set hreached hb undefined below hawaits success success₁ success₂⟩

def partBelow : Scenario :=
  ⟨"<p>$\x7buser.name\x7d</p>", [], "user", .object [("name", .string "A")]⟩

def besideLiteral : Scenario :=
  ⟨"<p class=\"by $\x7buser.name\x7d\">x</p>", [], "user", .object []⟩

def rowsGiveWay : Scenario :=
  ⟨"<ul><li data-repeat=\"rows\">x</li></ul>", [("rows", .array [.natural 1])], "rows", .string "none"⟩

def besideHeld : Scenario :=
  ⟨"<ul><li data-repeat=\"$\x7ba\x7d\">x</li><li data-repeat=\"$\x7bb\x7d\">y</li></ul>",
    [("b", .array [.natural 1])], "a", .array [.natural 1]⟩

def arrayRead : Scenario :=
  ⟨"<section class=\"$\x7brows\x7d $\x7bkind\x7d\"><p data-repeat=\"rows\">x</p></section>",
    [("kind", .string "k")], "rows", .array [.natural 1]⟩

def controlHeld : Scenario :=
  ⟨"<input value=\"$\x7ba\x7d\" Value=\"$\x7bb\x7d\">", [("b", .string "2")], "a", .string "1"⟩

/-- Each of the ways to meet shows. -/
theorem seen_extend_set_ne : partBelow.Differs ∧ besideLiteral.Differs ∧ rowsGiveWay.Differs ∧
    besideHeld.Differs ∧ arrayRead.Differs ∧ controlHeld.Differs := by
  refine ⟨?_, ?_, ?_, ?_, ?_, ?_⟩
  all_goals exact Scenario.occurs (by decide +kernel)

end Store

end LiveMarkup
