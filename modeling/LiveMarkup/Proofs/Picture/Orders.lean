import LiveMarkup.Proofs.Store.Batch
import LiveMarkup.Proofs.Picture.Exchange
import LiveMarkup.Proofs.Picture.Run

namespace LiveMarkup

open CompileContext Document Site

namespace Document

def isLivePlace (d : Document) : Place → Bool
  | .node _ => false
  | .attribute owner index => BoundLocation.isLiveValue d owner index

theorem isLivePlace_of_clash {d : Document} {l : Label} {q q' : Place} (h : l.Clash q q')
    (hl : d.label? q.owner = some l) (hl' : d.label? q'.owner = some l) :
    q = q' ∨ d.isLivePlace q = true ∧ d.isLivePlace q' = true := by
  refine h.imp_right fun ⟨j, k, hj, hk, hlive, hlive'⟩ => ?_
  rw [hj, hk, isLivePlace, isLivePlace, isLiveValue_eq hl, isLiveValue_eq hl']
  exact ⟨hlive, hlive'⟩

end Document

theorem afterStart?_eq_some {start cs rest : List Char} :
    Instance.afterStart? start cs = some rest ↔ cs = start ++ rest := by
  induction start generalizing cs with
  | nil => simp [Instance.afterStart?, eq_comm]
  | cons a start ih =>
    cases cs with
    | nil => simp [Instance.afterStart?]
    | cons c cs =>
      rw [Instance.afterStart?]
      by_cases hac : a = c
      · rw [if_pos hac, ih, hac, List.cons_append, List.cons.injEq, and_iff_right rfl]
      · rw [if_neg hac]
        simp [Ne.symm hac]

/-- A set of the property `name` concerns the property `key`: it is the same or one below it. -/
def Concerns (name key : String) : Prop := key = name ∨ (Instance.pathBelow? name key).isSome = true

instance (name key : String) : Decidable (Concerns name key) := inferInstanceAs (Decidable (_ ∨ _))

theorem concerns_iff {name key : String} :
    Concerns name key ↔ ∃ rest, key.toList ++ ['.'] = name.toList ++ '.' :: rest := by
  rw [Concerns, Instance.pathBelow?, Option.isSome_map, Option.isSome_iff_exists]
  constructor
  · rintro (rfl | ⟨rest, h⟩)
    · exact ⟨[], rfl⟩
    · rw [afterStart?_eq_some] at h
      exact ⟨rest ++ ['.'], by rw [h]; simp⟩
  · rintro ⟨rest, h⟩
    rcases List.eq_nil_or_concat rest with rfl | ⟨rest, c, rfl⟩
    · exact .inl (String.toList_inj.mp (List.append_cancel_right h))
    · have hall : key.toList ++ ['.'] = (name.toList ++ ['.'] ++ rest) ++ [c] := by
        rw [h]
        simp
      exact .inr ⟨rest, afterStart?_eq_some.mpr (List.append_inj_left' hall rfl)⟩

/-- Of two properties whose sets concern a third one, a set of one concerns the other. -/
theorem Concerns.comparable {a b n : String} (ha : Concerns a n) (hb : Concerns b n) :
    Concerns a b ∨ Concerns b a := by
  obtain ⟨rest, ha⟩ := concerns_iff.mp ha
  obtain ⟨rest', hb⟩ := concerns_iff.mp hb
  have hsplit : (a.toList ++ ['.']) ++ rest = (b.toList ++ ['.']) ++ rest' := by
    simpa using ha.symm.trans hb
  rcases List.append_eq_append_iff.mp hsplit with ⟨more, hmore, -⟩ | ⟨more, hmore, -⟩
  · exact .inl (concerns_iff.mpr ⟨more, by simpa using hmore⟩)
  · exact .inr (concerns_iff.mpr ⟨more, by simpa using hmore⟩)

namespace Instance

variable {i : Instance} {name : String} {v : Json}

/-- The properties have no anchor, no text and no live value in common. -/
structure Apart (d : Document) (i : Instance) (n m : String) : Prop where
  anchors : i.anchor? n = none ∨ i.anchor? n ≠ i.anchor? m
  left : i.anchor? n = none ∨ ∀ r ∈ i.locations m, n ∉ r.expression.reads m
  right : i.anchor? m = none ∨ ∀ r ∈ i.locations n, m ∉ r.expression.reads n
  controls : ∀ r ∈ i.locations n, ∀ r' ∈ i.locations m, r.place.owner = r'.place.owner →
    d.isLivePlace r.place = true → d.isLivePlace r'.place = true → r.place = r'.place

instance (d : Document) (i : Instance) (n m : String) : Decidable (i.Apart d n m) :=
  decidable_of_iff (_ ∧ _ ∧ _ ∧ _) ⟨fun h => ⟨h.1, h.2.1, h.2.2.1, h.2.2.2⟩,
    fun h => ⟨h.anchors, h.left, h.right, h.controls⟩⟩

theorem locations_of_get? {ls : List BoundLocation} (h : i.accessors.get? name = some (.bound ls)) :
    i.locations name = ls := by
  rw [locations, h]

variable {d₀ d : Document} {as : List (String × Accessor Instance)} {own : Shape} {p : Picture}
  {n m : String} {w : Json}

theorem Layout.changeOf_cases {more : NodeId → List Shape} (hs : i.Layout d₀ d as own more)
    (grow : Blueprint → Json → Option Tree) (hn : n ∈ i.accessors.names) (v : Json) :
    (∃ ls, i.accessors.get? n = some (.bound ls) ∧ changeOf grow as n v = .inscribe n v ls) ∨
      (∃ a, i.anchor? n = some a ∧ ∃ ts, changeOf grow as n v = .hang n v a ts) ∨
      changeOf grow as n v = .pass := by
  cases hget : i.accessors.get? n with
  | none => exact absurd hn (Table.get?_eq_none_iff.mp hget)
  | some ac =>
    have has := hs.get?_eq hget
    cases ac with
    | bound ls =>
      refine .inl ⟨ls, rfl, ?_⟩
      rw [changeOf, has]
      rfl
    | iterating a view cs =>
      refine .inr ?_
      have hanchor : i.anchor? n = some a := anchor?_eq_some.mpr ⟨view, cs, hget⟩
      rw [changeOf, has, Accessor.emptied]
      dsimp only
      split
      · rename_i items
        cases items.mapM (grow view) with
        | none => exact .inr rfl
        | some ts => exact .inl ⟨a, hanchor, ts, rfl⟩
      · exact .inr rfl

/-- Assignments of properties that are apart change different parts of the picture. -/
theorem Apart.independent (h : i.Apart d n m) (hp : PictureOf d₀ as own d i p) (hw : Wired as)
    (hne : n ≠ m) (hn : n ∈ i.accessors.names) (hm : m ∈ i.accessors.names)
    (grow : Blueprint → Json → Option Tree) (v w : Json) :
    Change.Independent p (changeOf grow as n v) (changeOf grow as m w) := by
  obtain ⟨⟨more, hs, -⟩, hlabels, -⟩ := hp
  rcases hs.changeOf_cases grow hn v with ⟨ls, hls, hv⟩ | ⟨a, ha, ts, hv⟩ | hv <;>
    rcases hs.changeOf_cases grow hm w with ⟨ls', hls', hw'⟩ | ⟨b, hb, ts', hw'⟩ | hw' <;>
      rw [hv, hw']
  · have hmem := hs.mem_of_get? hls
    have hmem' := hs.mem_of_get? hls'
    refine ⟨hne, fun r hr hread => hw.shared _ _ _ _ _ hmem hr hmem' hread,
      fun r hr hread => hw.shared _ _ _ _ _ hmem' hr hmem hread, fun r hr r' hr' howner hclash => ?_⟩
    have hlabel := hlabels _ (hs.owners _ _ hmem r hr)
    have hplace : r.place = r'.place := by
      rcases isLivePlace_of_clash hclash hlabel (howner ▸ hlabel) with hplace | ⟨hlive, hlive'⟩
      · exact hplace
      · refine h.controls r ?_ r' ?_ howner hlive hlive'
        · rwa [locations_of_get? hls]
        · rwa [locations_of_get? hls']
    exact hw.apart _ _ _ _ _ _ hmem hr hmem' hr' hplace
  · refine ⟨hne, fun r hr => ?_⟩
    rcases h.right with hnone | hreads
    · rw [hb] at hnone
      cases hnone
    · exact hreads r (by rwa [locations_of_get? hls])
  · trivial
  · refine ⟨hne.symm, fun r hr => ?_⟩
    rcases h.left with hnone | hreads
    · rw [ha] at hnone
      cases hnone
    · exact hreads r (by rwa [locations_of_get? hls'])
  · refine ⟨hne, fun e => ?_⟩
    rcases h.anchors with hnone | hanchors
    · rw [ha] at hnone
      cases hnone
    · exact hanchors (by rw [ha, hb, e])
  · trivial
  · trivial
  · trivial
  · trivial

/-- What the instance shows: its markup, the values of the form controls in its subtree, and the value
of each property. -/
def sight (q : Stage × Instance) : (String × List (Option String)) × (String → Option Json) :=
  ((q.2.render q.1.document, (q.1.document.descendants q.2.root).map q.1.document.controlValue?),
    q.2.get?)

theorem PictureOf.sight {q : Stage × Instance} (h : PictureOf d₀ as own q.1.document q.2 p) :
    sight q = (((p.treeOf own).render, (p.treeOf own).controls), p.value) := by
  rw [Instance.sight, h.render, h.controls]
  exact congrArg _ h.values

theorem mem_assignmentsOf {e : String × Json} (h : e ∈ assignmentsOf as name v) :
    Concerns name e.1 ∧ (e.1 = name ∨ e.1 ∈ as.map (·.1)) := by
  rcases List.mem_cons.mp h with rfl | h
  · exact ⟨.inl rfl, .inl rfl⟩
  · obtain ⟨key, hkey, hmap⟩ := List.mem_filterMap.mp h
    obtain ⟨path, hpath, rfl⟩ := Option.map_eq_some_iff.mp hmap
    exact ⟨.inr (Option.isSome_iff_exists.mpr ⟨path, hpath⟩), .inr hkey⟩

/-- After any calls, two properties of an instance of a template can be set in either order, unless one
is below the other, or some of those that they concern meet. -/
theorem sight_set_comm {text : String} {config : Config} {registry : Registry}
    {className : Option String} {data : Option Json} {s : Stage} {i : Instance}
    (h : (Template.new text config registry).instantiate className data = .ok (s, i))
    (calls : List Call) {s' : Stage} {j : Instance} (hrun : Call.run (s, i) calls = (s', j))
    {a b : String} (ha : j.hasProperty a = true) (hb : j.hasProperty b = true)
    (hab : ¬ Concerns a b) (hba : ¬ Concerns b a)
    (apart : ∀ n ∈ j.accessors.names, Concerns a n → ∀ m ∈ j.accessors.names, Concerns b m →
      j.Apart s'.document n m) (v w : Json) :
    sight (Call.run (s', j) [.set a v, .set b w]) = sight (Call.run (s', j) [.set b w, .set a v]) := by
  obtain ⟨b', log, l, id, ss, d, -, -, hexhibits, hcompiled, hall⟩ := exists_pictureReached_run h
  have hw := wired_accessorsAt ⟨config, (scan text).2⟩ b' hexhibits
  generalize accessorsAt ⟨config, (scan text).2⟩ b' id l ss = as at hcompiled hall hw
  have hj := hall calls
  rw [hrun] at hj
  obtain ⟨hregistry, values, hpicture⟩ := hj
  generalize Change.applyAll (.ofCopy d) (values.map fun e =>
    changeOf (alone registry) as e.1 e.2) = p at hpicture
  -- each order makes the changes of one set and then those of the other
  have hboth : ∀ (a b : String) (v w : Json), PictureOf .empty as (.node id (shapesAll ss))
      (Call.run (s', j) [.set a v, .set b w]).1.document (Call.run (s', j) [.set a v, .set b w]).2
      (Change.applyAll (Change.applyAll p (changesOf (alone registry) as (assignmentsOf as a v)))
        (changesOf (alone registry) as (assignmentsOf as b w))) := by
    intro a b v w
    have hfirst := PictureOf.set (q := (s', j)) hpicture hcompiled a v
    have hsecond := hfirst.set hcompiled b w
    have hsame : (Call.apply (s', j) (.set a v)).2.registry = j.registry := registry_set s' j a v
    rw [hsame, hregistry] at hsecond
    exact hsecond
  have hcomm : ∀ c ∈ changesOf (alone registry) as (assignmentsOf as a v),
      ∀ c' ∈ changesOf (alone registry) as (assignmentsOf as b w), Change.Independent p c c' := by
    intro c hc c' hc'
    obtain ⟨e, he, rfl⟩ := exists_of_mem_changesOf hc
    obtain ⟨e', he', rfl⟩ := exists_of_mem_changesOf hc'
    obtain ⟨hconcerns, hexposed⟩ := mem_assignmentsOf he
    obtain ⟨hconcerns', hexposed'⟩ := mem_assignmentsOf he'
    rw [← hpicture.names] at hexposed hexposed'
    rw [hasProperty, Table.contains_iff] at ha hb
    have hn : e.1 ∈ j.accessors.names := hexposed.elim (fun h => h ▸ ha) fun h => h
    have hm : e'.1 ∈ j.accessors.names := hexposed'.elim (fun h => h ▸ hb) fun h => h
    have hne : e.1 ≠ e'.1 := fun h => (hconcerns.comparable (h ▸ hconcerns')).elim hab hba
    exact (apart _ hn hconcerns _ hm hconcerns').independent hpicture hw hne hn hm _ _ _
  rw [(hboth a b v w).sight, (hboth b a w v).sight, Change.applyAll_comm hcomm]

def userText : String :=
  "<section title=\"$\x7buser.name\x7d $\x7bsize\x7d\">$\x7buser\x7d<p data-repeat=\"rows\">" ++
    "$\x7bname\x7d</p></section>"

def userData : Json :=
  .object [("size", .string "xl"), ("rows", .array [.object [("name", .string "r")]])]

theorem sight_set_comm_user :
    ∃ q, (Template.new userText .standard .standard).instantiate none none = .ok q ∧
      sight (Call.run (Call.run q [.configure userData])
          [.set "user" (.object [("name", .string "A")]), .set "size" (.natural 2)]) =
        sight (Call.run (Call.run q [.configure userData])
          [.set "size" (.natural 2), .set "user" (.object [("name", .string "A")])]) := by
  obtain ⟨q, hq, hcheck⟩ := exists_of_check (.new userText .standard .standard) none none
    (fun q =>
      let q := Call.run q [.configure userData]
      decide (q.2.hasProperty "user" = true ∧ q.2.hasProperty "size" = true ∧
        ∀ n ∈ q.2.accessors.names, Concerns "user" n → ∀ m ∈ q.2.accessors.names,
          Concerns "size" m → q.2.Apart q.1.document n m)) (by decide +kernel)
  obtain ⟨ha, hb, hapart⟩ := of_decide_eq_true hcheck
  exact ⟨q, hq, sight_set_comm (s := q.1) (i := q.2) hq [.configure userData] rfl ha hb
    (by decide) (by decide) hapart _ _⟩

/-- A text, and two of its properties with values for them. -/
structure Meeting where
  text : String
  first : String × Json
  second : String × Json

/-- Both properties are there and take the values, neither is below the other, and still the order of
the two sets shows. -/
def Meeting.Disagrees (c : Meeting) : Prop :=
  ∃ q, (Template.new c.text .standard .standard).instantiate none none = .ok q ∧
    (∀ e ∈ [c.first, c.second], q.2.hasProperty e.1 = true ∧
      (q.2.anchor? e.1 ≠ none → e.2.kindName = "array")) ∧
    ¬ Concerns c.first.1 c.second.1 ∧ ¬ Concerns c.second.1 c.first.1 ∧
    sight (Call.run q [.set c.first.1 c.first.2, .set c.second.1 c.second.2]) ≠
      sight (Call.run q [.set c.second.1 c.second.2, .set c.first.1 c.first.2])

theorem Meeting.disagrees {c : Meeting}
    (h : ((Template.new c.text .standard .standard).instantiate none none).toOption.map (fun q =>
      decide ((∀ e ∈ [c.first, c.second], q.2.hasProperty e.1 = true ∧
          (q.2.anchor? e.1 ≠ none → e.2.kindName = "array")) ∧
        ¬ Concerns c.first.1 c.second.1 ∧ ¬ Concerns c.second.1 c.first.1 ∧
        (sight (Call.run q [.set c.first.1 c.first.2, .set c.second.1 c.second.2])).1 ≠
          (sight (Call.run q [.set c.second.1 c.second.2, .set c.first.1 c.first.2])).1)) =
      some true) : c.Disagrees := by
  obtain ⟨q, hq, hcheck⟩ := exists_of_check _ _ _ _ h
  obtain ⟨hexposed, hab, hba, hne⟩ := of_decide_eq_true hcheck
  exact ⟨q, hq, hexposed, hab, hba, fun e => hne (congrArg Prod.fst e)⟩

def twoRegions : Meeting :=
  ⟨"<ul><li data-repeat=\"$\x7ba\x7d\">x</li><li data-repeat=\"$\x7bb\x7d\">y</li></ul>",
    ("a", .array [.natural 1]), ("b", .array [.natural 1])⟩

def readArray : Meeting :=
  ⟨"<section class=\"$\x7brows\x7d $\x7bkind\x7d\"><p data-repeat=\"rows\">x</p></section>",
    ("rows", .array [.natural 1]), ("kind", .string "k")⟩

def sharedControl : Meeting :=
  ⟨"<input value=\"$\x7ba\x7d\" Value=\"$\x7bb\x7d\">", ("a", .string "1"), ("b", .string "2")⟩

theorem sight_set_ne :
    twoRegions.Disagrees ∧ readArray.Disagrees ∧ sharedControl.Disagrees :=
  ⟨Meeting.disagrees (by decide +kernel), Meeting.disagrees (by decide +kernel),
    Meeting.disagrees (by decide +kernel)⟩

end Instance

end LiveMarkup
