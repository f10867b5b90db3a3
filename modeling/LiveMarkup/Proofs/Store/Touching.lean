import LiveMarkup.Proofs.Store.Refusing

namespace LiveMarkup

namespace Document

variable {places places' : Place → Prop} {d d' d'' : Document}

/-- All that is different is what is written at the places: no node comes, goes or moves, and none
gets another name or attribute. -/
structure WrittenAt (places : Place → Prop) (d d' : Document) : Prop where
  contains : ∀ x, d'.contains x = d.contains x
  parent : ∀ x, d'.parent? x = d.parent? x
  children : ∀ x, d'.children x = d.children x
  kind : ∀ x, d'.kind? x = d.kind? x
  name : ∀ x, d'.name? x = d.name? x
  names : ∀ x, (d'.attributes x).names = (d.attributes x).names
  text : ∀ x, d'.text? x ≠ d.text? x → places (.node x)
  value : ∀ x k, (d'.attributes x).entries[k]? ≠ (d.attributes x).entries[k]? →
    places (.attribute x k) ∧ BoundLocation.isLiveValue d x k = false
  control : ∀ x, d'.controlValue? x ≠ d.controlValue? x →
    ∃ k, places (.attribute x k) ∧ BoundLocation.isLiveValue d x k = true
  others : ∀ x, d'.node? x ≠ d.node? x → ∃ p, places p ∧ p.owner = x

theorem isLiveValue_congr {x : NodeId} (hname : d'.name? x = d.name? x)
    (hnames : (d'.attributes x).names = (d.attributes x).names) (k : Nat) :
    BoundLocation.isLiveValue d' x k = BoundLocation.isLiveValue d x k := by
  have hentry := congrArg (fun ns : List String => (ns[k]?).map fun n => sameName n "value") hnames
  simp only [Table.names, List.getElem?_map, Option.map_map, Function.comp_def] at hentry
  rw [BoundLocation.isLiveValue, BoundLocation.isLiveValue, hname, hentry]

namespace WrittenAt

theorem refl (places : Place → Prop) (d : Document) : WrittenAt places d d where
  contains _ := rfl
  parent _ := rfl
  children _ := rfl
  kind _ := rfl
  name _ := rfl
  names _ := rfl
  text _ h := absurd rfl h
  value _ _ h := absurd rfl h
  control _ h := absurd rfl h
  others _ h := absurd rfl h

theorem mono (h : WrittenAt places d d') (hsub : ∀ p, places p → places' p) :
    WrittenAt places' d d' where
  contains := h.contains
  parent := h.parent
  children := h.children
  kind := h.kind
  name := h.name
  names := h.names
  text x hx := hsub _ (h.text x hx)
  value x k hx := ⟨hsub _ (h.value x k hx).1, (h.value x k hx).2⟩
  control x hx := by
    obtain ⟨k, hk, hlive⟩ := h.control x hx
    exact ⟨k, hsub _ hk, hlive⟩
  others x hx := by
    obtain ⟨p, hp, howner⟩ := h.others x hx
    exact ⟨p, hsub p hp, howner⟩

theorem trans (h : WrittenAt places d d') (h' : WrittenAt places d' d'') :
    WrittenAt places d d'' := by
  have hlive : ∀ x k, BoundLocation.isLiveValue d' x k = BoundLocation.isLiveValue d x k :=
    fun x => isLiveValue_congr (h.name x) (h.names x)
  -- What differs in the end differs after the first step or after the second one.
  have hsteps : ∀ {α : Type} {a b c : α}, c ≠ a → b ≠ a ∨ c ≠ b := by
    intro α a b c hne
    by_cases hb : b = a
    · exact .inr fun hc => hne (hc.trans hb)
    · exact .inl hb
  exact
    { contains := fun x => (h'.contains x).trans (h.contains x)
      parent := fun x => (h'.parent x).trans (h.parent x)
      children := fun x => (h'.children x).trans (h.children x)
      kind := fun x => (h'.kind x).trans (h.kind x)
      name := fun x => (h'.name x).trans (h.name x)
      names := fun x => (h'.names x).trans (h.names x)
      text := fun x hx => (hsteps hx).elim (h.text x) (h'.text x)
      value := fun x k hx => (hsteps hx).elim (h.value x k) fun hx => hlive x k ▸ h'.value x k hx
      control := fun x hx => (hsteps hx).elim (h.control x) fun hx => by
        obtain ⟨k, hk, hshown⟩ := h'.control x hx
        exact ⟨k, hk, hlive x k ▸ hshown⟩
      others := fun x hx => (hsteps hx).elim (h.others x) (h'.others x) }

end WrittenAt

theorem label?_write (d : Document) (p : Place) (text : String) (x : NodeId) :
    (BoundLocation.write d p text).label? x =
      (d.label? x).map fun l => if x = p.owner then l.inscribe p text else l := by
  rw [label?, label?, node?_write, Option.map_map, Option.map_map]
  rfl

theorem bind_label?_write {α : Type} {p : Place} {text : String} {x : NodeId} {r : Label → Option α}
    (h : ∀ l, d.label? x = some l → x = p.owner → r (l.inscribe p text) = r l) :
    ((BoundLocation.write d p text).label? x).bind r = (d.label? x).bind r := by
  rw [label?_write]
  cases hl : d.label? x with
  | none => rfl
  | some l =>
    rw [Option.map_some, Option.bind_some, Option.bind_some]
    split_ifs with hx
    · exact h l hl hx
    · rfl

theorem getElem?_attributes (d : Document) (x : NodeId) (k : Nat) :
    (d.attributes x).entries[k]? = (d.label? x).bind fun l => l.attributes.entries[k]? := by
  rw [attributes]
  cases d.label? x <;> rfl

theorem names_attributes (d : Document) (x : NodeId) :
    (d.attributes x).names = ((d.label? x).bind fun l => some l.attributes.names).getD [] := by
  rw [attributes]
  cases d.label? x <;> rfl

theorem writtenAt_write (d : Document) (p : Place) (text : String) :
    WrittenAt (· = p) d (BoundLocation.write d p text) where
  contains x := by rw [contains, contains, node?_write, Option.isSome_map]
  parent x := by
    rw [parent?, parent?, node?_write, Option.bind_map]
    rfl
  children x := by
    rw [children, children, node?_write, Option.map_map]
    rfl
  kind x := by
    rw [kind?, kind?, Option.map_eq_bind, Option.map_eq_bind]
    exact bind_label?_write fun l _ _ => congrArg some (l.kind_inscribe p text)
  name x := by
    rw [name?, name?, Option.map_eq_bind, Option.map_eq_bind]
    exact bind_label?_write fun l _ _ => congrArg some (l.name_inscribe p text)
  names x := by
    rw [names_attributes, names_attributes, bind_label?_write]
    exact fun l _ _ => congrArg some (l.names_inscribe p text)
  text x hx := by
    by_contra hno
    refine hx (bind_label?_write fun l _ howner => ?_)
    cases p with
    | node id => exact absurd (congrArg Place.node howner) hno
    | «attribute» owner index => rw [l.content_inscribe_attribute]
  value x k hx := by
    by_contra hno
    rw [getElem?_attributes, getElem?_attributes] at hx
    refine hx (bind_label?_write fun l hl howner => Label.getElem?_inscribe fun y hp => ?_)
    obtain rfl : x = y := howner.trans (congrArg Place.owner hp)
    by_contra hdead
    rw [Bool.not_eq_true, ← isLiveValue_eq hl] at hdead
    exact hno ⟨hp.symm, hdead⟩
  control x hx := by
    by_contra hno
    refine hx (bind_label?_write (r := Label.controlValue?) fun l hl howner =>
      Label.controlValue?_inscribe fun y k hp => ?_)
    obtain rfl : x = y := howner.trans (congrArg Place.owner hp)
    by_contra hlive
    rw [Bool.not_eq_false, ← isLiveValue_eq hl] at hlive
    exact hno ⟨k, hp.symm, hlive⟩
  others x hx := by
    refine ⟨p, rfl, ?_⟩
    by_contra hno
    refine hx ?_
    rw [node?_write]
    cases d.node? x with
    | none => rfl
    | some n => rw [Option.map_some, if_neg (Ne.symm hno)]

end Document

namespace Store

theorem Reached.embedded {d : Document} {i : Instance} (h : Reached d i) : i.Embedded d := by
  obtain ⟨S, watch, e, k, -, hlock⟩ := h.exists_lockstepAt
  obtain ⟨_, _, _, hg, renamed, -⟩ := hlock.exists_state
  exact ((renamed.left.embedded _ List.mem_cons_self).descend? hg).1

end Store

namespace Instance

open Document

variable {s : Stage} {i : Instance} {name : String} {v : Json} {values : List (String × Json)}

/-- The place is one of those of the bound properties. -/
def HasPlace (i : Instance) (names : List String) (p : Place) : Prop :=
  ∃ n ∈ names, ∃ ls, i.accessors.get? n = some (.bound ls) ∧ ∃ r ∈ ls, r.place = p

theorem writtenAt_writeLocations (d : Document) (name : String) (values : Table Json)
    (ls : List BoundLocation) :
    WrittenAt (fun p => ∃ r ∈ ls, r.place = p) d (writeLocations d name values ls) := by
  induction ls generalizing d with
  | nil => exact .refl _ d
  | cons r ls ih =>
    refine ((writtenAt_write d r.place _).mono ?_).trans ((ih _).mono ?_)
    · rintro p rfl
      exact ⟨r, List.mem_cons_self, rfl⟩
    · rintro p ⟨r', hr', rfl⟩
      exact ⟨r', List.mem_cons_of_mem r hr', rfl⟩

/-- Values of bound properties are all taken, and are written to the places of these properties. -/
theorem assignAllWith_of_bound
    (h : ∀ n ∈ values.map (·.1), ∃ ls, i.accessors.get? n = some (.bound ls)) (build : Build)
    (s : Stage) :
    (assignAllWith build s i values).error = none ∧
      (assignAllWith build s i values).self.accessors = i.accessors ∧
      s.document.WrittenAt (i.HasPlace (values.map (·.1)))
        (assignAllWith build s i values).stage.document := by
  induction values generalizing s i with
  | nil => exact ⟨rfl, rfl, .refl _ _⟩
  | cons p values ih =>
    rw [List.map_cons, List.forall_mem_cons] at h
    obtain ⟨⟨ls, hget⟩, hrest⟩ := h
    rw [assignAllWith, assignWith, hget]
    obtain ⟨herror, haccessors, hwritten⟩ := ih hrest
      (i := (i.withValue p.1 p.2).notify p.1)
      (s.withDocument (writeLocations s.document p.1 (i.withValue p.1 p.2).values ls))
    refine ⟨herror, haccessors, .trans (.mono (writtenAt_writeLocations s.document p.1 _ ls) ?_)
      (hwritten.mono ?_)⟩
    · exact fun q hq => ⟨p.1, List.mem_cons_self, ls, hget, hq⟩
    · rintro q ⟨n, hn, hq⟩
      exact ⟨n, List.mem_cons_of_mem _ hn, hq⟩

/-- What an outcome touches, if the properties of these names are all that took values. -/
structure Touches (s : Stage) (i : Instance) (names : List String) (o : Outcome) : Prop where
  error : o.error = none
  values : ∀ n ∉ names, o.self.get? n = i.get? n
  /-- Locations, regions and their children are the same. -/
  accessors : o.self.accessors = i.accessors
  written : s.document.WrittenAt (i.HasPlace names) o.stage.document
  /-- No place belongs to a child, or to another instance. -/
  own : ∀ p, i.HasPlace names p → s.document.Own i.stops p.owner i.root
  elsewhere : ∀ x, ¬ s.document.Own i.stops x i.root →
    o.stage.document.node? x = s.document.node? x
  appearance : ∀ n, ∀ c ∈ i.children n,
    c.appearance o.stage.document = c.appearance s.document

/-- Whatever led to the instance, a set of a bound property, with bound ones only below it, touches
no more than their values and what is written at their places. -/
theorem touches_set (hreached : Store.Reached s.document i)
    (h : ∀ n ∈ name :: i.namesBelow name, ∃ ls, i.accessors.get? n = some (.bound ls)) (v : Json) :
    i.Touches s (name :: i.namesBelow name) (i.set s name v) := by
  have hnames : ((name, v) :: i.dependents name v).map (·.1) = name :: i.namesBelow name := by
    rw [List.map_cons, map_fst_dependents]
  rw [← hnames] at h ⊢
  have hset : i.set s name v = assignAllWith (Instance.build i.registry) s i
      ((name, v) :: i.dependents name v) := rfl
  obtain ⟨herror, haccessors, hwritten⟩ := assignAllWith_of_bound h (Instance.build i.registry) s
  rw [← hset] at herror haccessors hwritten
  have hown : ∀ p, i.HasPlace (((name, v) :: i.dependents name v).map (·.1)) p →
      s.document.Own i.stops p.owner i.root := by
    rintro p ⟨n, -, ls, hget, r, hr, rfl⟩
    exact hreached.embedded.own_of_get? hget _ (List.mem_map_of_mem hr)
  refine ⟨herror, fun n hn => ?_, haccessors, hwritten, hown, fun x hx => ?_, fun n c hc => ?_⟩
  · exact (confined_assignAllWith (Instance.build i.registry) s i _).get?_of_not_mem hn
  · by_contra hne
    obtain ⟨p, hp, rfl⟩ := hwritten.others x hne
    exact hx (hown p hp)
  · refine hreached.appearance_assignAll i.registry (fun hn => ?_) c hc
    obtain ⟨ls, hget⟩ := h n hn
    rw [Instance.children, hget] at hc
    cases hc

theorem exists_bound (hproperty : i.hasProperty name = true) (hanchor : i.anchor? name = none) :
    ∃ ls, i.accessors.get? name = some (.bound ls) := by
  rcases hget : i.accessors.get? name with _ | ⟨ls⟩ | ⟨a, view, cs⟩
  · exact absurd (Table.contains_iff.mp hproperty) (Table.get?_eq_none_iff.mp hget)
  · exact ⟨ls, rfl⟩
  · rw [anchor?_eq_some.mpr ⟨view, cs, hget⟩] at hanchor
    cases hanchor

end Instance

namespace Store

def badgeText : String :=
  "<section class=\"$\x7bkind.size\x7d\"><p>$\x7bkind\x7d</p>" ++
    "<ul><li data-repeat=\"rows\">$\x7bname\x7d</li></ul></section>"

/-- One of two cards that were filled in turns takes another kind. -/
theorem touches_set_badgeText :
    ∃ b log i, Blueprint.compile .standard badgeText none = (.ok b, log) ∧
      (run ⟨emptiedDocument, .empty⟩ (interleavedActs b)).find? "right" [] = some i ∧
      i.namesBelow "kind" = ["kind.size"] ∧ (i.children "rows").length = 1 ∧
      let s : Stage := ⟨(run ⟨emptiedDocument, .empty⟩ (interleavedActs b)).document, []⟩
      i.Touches s ["kind", "kind.size"] (i.set s "kind" (.object [("size", .string "xl")])) := by
  obtain ⟨b, log, i, a, view, former, hcompile, hb, found, -, hcheck⟩ :=
    exists_of_probe emptiedDocument badgeText interleavedActs "right" "rows" (fun _ i _ =>
      (i.namesBelow "kind" == ["kind.size"] && (i.children "rows").length == 1) &&
        ["kind", "kind.size"].all fun n => i.hasProperty n && (i.anchor? n).isNone)
      (by decide +kernel)
  rw [Bool.and_eq_true, Bool.and_eq_true, beq_iff_eq, beq_iff_eq, List.all_eq_true] at hcheck
  obtain ⟨⟨hbelow, hlength⟩, hbound⟩ := hcheck
  obtain ⟨s, hcopies, -⟩ := Document.tidy_empty.graft (.node (.element "p") [])
  have hreached : Reached (run ⟨emptiedDocument, .empty⟩ (interleavedActs b)).document i :=
    ⟨emptiedDocument, interleavedActs b, "right", [], hcopies.tidy.remove 0,
      compiled_interleavedActs hb, rfl, found⟩
  have hall : ∀ n ∈ "kind" :: i.namesBelow "kind", ∃ ls, i.accessors.get? n = some (.bound ls) := by
    intro n hn
    rw [hbelow] at hn
    have hone := hbound n hn
    rw [Bool.and_eq_true, Option.isNone_iff_eq_none] at hone
    exact Instance.exists_bound hone.1 hone.2
  have htouches :=
    Instance.touches_set (s := ⟨_, []⟩) hreached hall (.object [("size", .string "xl")])
  rw [hbelow] at htouches
  exact ⟨b, log, i, hcompile, found, hbelow, hlength, htouches⟩

end Store

end LiveMarkup
