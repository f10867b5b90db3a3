import LiveMarkup.Proofs.Instance.Reading
import LiveMarkup.Proofs.Picture.Configuring

/-!
# Data taken member by member

An instance without regions takes an object as a whole, or each of its members in turn, in any order. Each
property is below one member only, so in the end the same values are written, and to write them in another
order makes no difference.
-/

namespace LiveMarkup

open CompileContext Document Site

/-! ### Changes in any order -/

namespace Change

variable {p : Picture} {c : Change} {cs cs' : List Change}

/-- Changes that can be exchanged can be made in any order. -/
theorem applyAll_perm (h : cs.Perm cs')
    (independent : ∀ c ∈ cs, ∀ c' ∈ cs, c ≠ c' → Independent p c c') :
    applyAll p cs = applyAll p cs' := by
  induction h generalizing p with
  | nil => rfl
  | cons c _ ih =>
    refine ih fun e he e' he' hne => ?_
    exact (independent e (List.mem_cons_of_mem _ he) e' (List.mem_cons_of_mem _ he') hne).apply c
  | swap c c' cs =>
    rw [applyAll_cons, applyAll_cons, applyAll_cons, applyAll_cons]
    by_cases hne : c' = c
    · rw [hne]
    · rw [apply_comm (independent c' List.mem_cons_self c
        (List.mem_cons_of_mem _ List.mem_cons_self) hne)]
  | trans h _ ih ih' =>
    refine (ih independent).trans (ih' fun c hc c' hc' => ?_)
    exact independent c (h.mem_iff.mpr hc) c' (h.mem_iff.mpr hc')

end Change

/-! ### Live values -/

theorem eq_of_countP_le_one {α : Type} {f : α → Bool} {xs : List α} (h : xs.countP f ≤ 1) {a b : Nat}
    {x y : α} (ha : xs[a]? = some x) (hb : xs[b]? = some y) (hx : f x = true) (hy : f y = true) :
    a = b := by
  induction xs generalizing a b with
  | nil => cases ha
  | cons z xs ih =>
    rw [List.countP_cons] at h
    have hnone : ∀ {k : Nat} {w : α}, f z = true → xs[k]? = some w → f w = false := by
      intro k w hz hk
      rw [if_pos hz] at h
      have hcount : xs.countP f = 0 := by omega
      exact Bool.eq_false_iff.mpr (List.countP_eq_zero.mp hcount w (List.mem_of_getElem? hk))
    cases a with
    | zero =>
      cases b with
      | zero => rfl
      | succ b =>
        obtain rfl := Option.some.inj ha
        rw [hnone hx hb] at hy
        cases hy
    | succ a =>
      cases b with
      | zero =>
        obtain rfl := Option.some.inj hb
        rw [hnone hy ha] at hx
        cases hx
      | succ b => exact congrArg _ (ih (by omega) ha hb)

/-- No form control has two attributes spelled `value`. -/
def Document.OneValue (d : Document) (x : NodeId) : Prop :=
  ((d.name? x).map isFormControl).getD false = true →
    (d.attributes x).entries.countP (fun a => sameName a.1 "value") ≤ 1

instance (d : Document) (x : NodeId) : Decidable (d.OneValue x) :=
  inferInstanceAs (Decidable (_ → _))

theorem Document.OneValue.eq_of_isLiveValue {d : Document} {x : NodeId} (h : d.OneValue x) {a b : Nat}
    (ha : BoundLocation.isLiveValue d x a = true) (hb : BoundLocation.isLiveValue d x b = true) :
    a = b := by
  rw [BoundLocation.isLiveValue, Bool.and_eq_true] at ha hb
  rcases hx : (d.attributes x).entries[a]? with _ | e
  · simp [hx] at ha
  · rcases hy : (d.attributes x).entries[b]? with _ | e'
    · simp [hy] at hb
    · rw [hx] at ha
      rw [hy] at hb
      exact eq_of_countP_le_one (h ha.1) hx hy ha.2 hb.2

namespace Instance

variable {as : List (String × Accessor Instance)} {members order : List (String × Json)}
  {name : String} {v w : Json}

/-! ### Properties below members -/

theorem exists_member_concerns (name : String) : ∃ key : String, '.' ∉ key.toList ∧
    (name = key ∨ ∃ path : String, pathBelow? key name = some path ∧
      name.toList = key.toList ++ '.' :: path.toList) := by
  by_cases hdot : '.' ∈ name.toList
  · obtain ⟨key, path, hsplit, hkey⟩ := List.eq_append_cons_of_mem hdot
    refine ⟨.ofList key, by simpa using hkey, .inr ⟨.ofList path, ?_, by simpa using hsplit⟩⟩
    have hafter : afterStart? (key ++ ['.']) name.toList = some path := by
      rw [afterStart?_eq_some, hsplit, List.append_assoc]
      rfl
    rw [pathBelow?, String.toList_ofList, hafter]
    rfl
  · exact ⟨name, hdot, .inl rfl⟩

theorem toList_of_pathBelow? {key path : String} (h : pathBelow? key name = some path) :
    name.toList = key.toList ++ '.' :: path.toList := by
  rw [pathBelow?, Option.map_eq_some_iff] at h
  obtain ⟨cs, hcs, rfl⟩ := h
  rw [afterStart?_eq_some.mp hcs, String.toList_ofList, List.append_assoc]
  rfl

theorem not_concerns_of_undotted {key key' : String} (hkey : '.' ∉ key'.toList) (hne : key' ≠ key) :
    ¬ Concerns key key' := by
  rintro (rfl | hbelow)
  · exact hne rfl
  · obtain ⟨path, hpath⟩ := Option.isSome_iff_exists.mp hbelow
    refine hkey ?_
    rw [toList_of_pathBelow? hpath]
    simp

theorem map_fst_assignmentsOf (as : List (String × Accessor Instance)) (name : String) (v : Json) :
    (assignmentsOf as name v).map (·.1) =
      name :: (as.map (·.1)).filter fun key => (pathBelow? name key).isSome := by
  have hnames := map_fst_filterMap id (fun key => (pathBelow? name key).map fun path =>
    (v.resolve? path).getD .null) (as.map (·.1))
  simp only [Option.map_map, Function.comp_def, Option.isSome_map, id] at hnames
  rw [assignmentsOf, List.map_cons, hnames, List.map_id]

structure Covers (members : List (String × Json)) (ns : List String) : Prop where
  keys : (members.map (·.1)).Nodup
  undotted : ∀ m ∈ members, '.' ∉ m.1.toList
  distinct : ns.Nodup
  dotted : ∀ n ∈ ns, isDottedName n.toList = true
  resolves : ∀ n ∈ ns, ((Json.object members).resolve? n).isSome = true

namespace Covers

variable {ns : List String} {key n path : String} (hc : Covers members ns)
include hc

theorem get?_eq (h : (key, v) ∈ members) : Table.get? ⟨members⟩ key = some v :=
  (Table.get?_eq_some_iff hc.keys).mpr h

theorem resolve?_self (hn : n ∈ ns) (h : (n, v) ∈ members) :
    (Json.object members).resolve? n = some v := by
  rw [Json.resolve?_member (hc.dotted n hn) (hc.undotted _ h), hc.get?_eq h]

theorem resolve?_below (hn : n ∈ ns) (h : (key, v) ∈ members) (hpath : pathBelow? key n = some path) :
    (Json.object members).resolve? n = v.resolve? path := by
  rw [Json.resolve?_below (hc.dotted n hn) (hc.undotted _ h) (toList_of_pathBelow? hpath), hc.get?_eq h]
  rfl

theorem exists_member (hn : n ∈ ns) : ∃ m ∈ members, n = m.1 ∨ ∃ path, pathBelow? m.1 n = some path := by
  obtain ⟨w, hw⟩ := Option.isSome_iff_exists.mp (hc.resolves n hn)
  obtain ⟨key, hkey, rfl | ⟨path, hpath, hsplit⟩⟩ := exists_member_concerns n
  · rw [Json.resolve?_member (hc.dotted n hn) hkey] at hw
    exact ⟨(n, w), (Table.get?_eq_some_iff hc.keys).mp hw, .inl rfl⟩
  · rw [Json.resolve?_below (hc.dotted n hn) hkey hsplit] at hw
    obtain ⟨v, hv, -⟩ := Option.bind_eq_some_iff.mp hw
    exact ⟨(key, v), (Table.get?_eq_some_iff hc.keys).mp hv, .inr ⟨path, hpath⟩⟩

end Covers

theorem Covers.nodup_assignments (hc : Covers members (as.map (·.1))) (hperm : order.Perm members) :
    ((order.flatMap fun m => assignmentsOf as m.1 m.2).map (·.1)).Nodup := by
  have hkeys : (order.map (·.1)).Nodup := (hperm.map _).nodup_iff.mpr hc.keys
  rw [List.map_flatMap, List.nodup_flatMap]
  refine ⟨fun m _ => ?_, (List.pairwise_map.mp hkeys).imp_of_mem fun {m m'} hm hm' hne => ?_⟩
  · rw [map_fst_assignmentsOf, List.nodup_cons]
    refine ⟨fun hmem => ?_, hc.distinct.filter _⟩
    have hself := (List.mem_filter.mp hmem).2
    rw [pathBelow?, afterStart?_self] at hself
    cases hself
  -- A name below two members would put one of them below the other.
  · intro n hn hn'
    obtain ⟨e, he, rfl⟩ := List.mem_map.mp hn
    obtain ⟨e', he', hsame⟩ := List.mem_map.mp hn'
    have hconcerns := (mem_assignmentsOf he).1
    have hconcerns' := (mem_assignmentsOf he').1
    rw [hsame] at hconcerns'
    rcases hconcerns.comparable hconcerns' with h | h
    · exact not_concerns_of_undotted (hc.undotted _ (hperm.subset hm')) hne.symm h
    · exact not_concerns_of_undotted (hc.undotted _ (hperm.subset hm)) hne h

theorem Covers.mem_assignmentsOf_iff (hc : Covers members (as.map (·.1))) {m : String × Json}
    (hm : m ∈ members) {e : String × Json} : e ∈ assignmentsOf as m.1 m.2 ↔
      e = m ∨ (pathBelow? m.1 e.1).isSome = true ∧ e ∈ resolved (.object members) (as.map (·.1)) := by
  rw [assignmentsOf, List.mem_cons]
  refine or_congr_right ⟨fun he => ?_, ?_⟩
  · obtain ⟨n, hn, hmap⟩ := List.mem_filterMap.mp he
    obtain ⟨path, hpath, rfl⟩ := Option.map_eq_some_iff.mp hmap
    have hresolves := hc.resolves n hn
    rw [hc.resolve?_below hn hm hpath] at hresolves
    obtain ⟨w, hw⟩ := Option.isSome_iff_exists.mp hresolves
    refine ⟨Option.isSome_iff_exists.mpr ⟨path, hpath⟩, List.mem_filterMap.mpr ⟨n, hn, ?_⟩⟩
    rw [hc.resolve?_below hn hm hpath, hw]
    rfl
  · rintro ⟨hbelow, he⟩
    obtain ⟨n, w⟩ := e
    obtain ⟨path, hpath⟩ := Option.isSome_iff_exists.mp hbelow
    obtain ⟨hn, hw⟩ := mem_resolved he
    dsimp only at hpath hn hw
    rw [hc.resolve?_below hn hm hpath] at hw
    refine List.mem_filterMap.mpr ⟨n, hn, ?_⟩
    rw [hpath, Option.map_some, hw]
    rfl

/-- What is assigned when the members are set one after another is what the properties are in the object,
and besides those the members that are no properties. -/
theorem Covers.assignments_perm (hc : Covers members (as.map (·.1))) (hperm : order.Perm members) :
    (order.flatMap fun m => assignmentsOf as m.1 m.2).Perm
      (resolved (.object members) (as.map (·.1)) ++ order.filter fun m => m.1 ∉ as.map (·.1)) := by
  have hkeys : (order.map (·.1)).Nodup := (hperm.map _).nodup_iff.mpr hc.keys
  have hresolved : ((resolved (.object members) (as.map (·.1))).map (·.1)).Nodup := by
    have hnames := map_fst_filterMap id (fun n => (Json.object members).resolve? n) (as.map (·.1))
    rw [List.map_id] at hnames
    exact hnames ▸ hc.distinct.filter _
  have hall := hc.nodup_assignments hperm
  refine (List.perm_ext_iff_of_nodup hall.of_map (.of_map (·.1) ?_)).mpr fun e => ?_
  · rw [List.map_append, List.nodup_append]
    refine ⟨hresolved, (List.filter_sublist.map _).nodup hkeys, fun n hn n' hn' hsame => ?_⟩
    obtain ⟨e, he, rfl⟩ := List.mem_map.mp hn
    obtain ⟨m, hm, rfl⟩ := List.mem_map.mp hn'
    exact of_decide_eq_true (List.mem_filter.mp hm).2 (hsame ▸ (mem_resolved he).1)
  · rw [List.mem_flatMap, List.mem_append, List.mem_filter, decide_eq_true_eq]
    constructor
    · rintro ⟨m, hm, he⟩
      rcases (hc.mem_assignmentsOf_iff (hperm.subset hm)).mp he with rfl | ⟨-, he⟩
      · by_cases hn : e.1 ∈ as.map (·.1)
        · refine .inl (List.mem_filterMap.mpr ⟨e.1, hn, ?_⟩)
          rw [hc.resolve?_self hn (hperm.subset hm)]
          rfl
        · exact .inr ⟨hm, hn⟩
      · exact .inl he
    · rintro (he | ⟨hm, -⟩)
      · obtain ⟨hn, hw⟩ := mem_resolved he
        obtain ⟨m, hm, hbelow⟩ := hc.exists_member hn
        refine ⟨m, hperm.mem_iff.mpr hm, (hc.mem_assignmentsOf_iff hm).mpr ?_⟩
        rcases hbelow with hself | ⟨path, hpath⟩
        · rw [hc.resolve?_self hn (by rw [hself]; exact hm)] at hw
          exact .inl (Prod.ext hself (Option.some.inj hw).symm)
        · exact .inr ⟨Option.isSome_iff_exists.mpr ⟨path, hpath⟩, he⟩
      · exact ⟨e, hm, List.mem_cons_self⟩

/-! ### Instances without regions -/

section Plain

variable {d₀ d : Document} {own : Shape} {i : Instance} {p : Picture} {n m : String}
  {grow : Blueprint → Json → Option Tree}

/-- Accessors without regions, whose locations read only each other's properties. -/
structure Plain (as : List (String × Accessor Instance)) : Prop where
  wired : Wired as
  nodup : (as.map (·.1)).Nodup
  bound : ∀ n a view cs, (n, .iterating a view cs) ∉ as
  closed : ∀ n ls r m, (n, .bound ls) ∈ as → r ∈ ls → m ∈ r.expression.reads n → m ∈ as.map (·.1)

theorem Plain.changeOf_cases (h : Plain as) (grow : Blueprint → Json → Option Tree) (n : String)
    (v : Json) : (∃ ls, (n, .bound ls) ∈ as ∧ changeOf grow as n v = .inscribe n v ls) ∨
      n ∉ as.map (·.1) ∧ changeOf grow as n v = .inscribe n v [] := by
  rw [changeOf]
  cases hget : Table.get? ⟨as⟩ n with
  | none => exact .inr ⟨Table.get?_eq_none_iff.mp hget, rfl⟩
  | some ac =>
    have hmem := (Table.get?_eq_some_iff h.nodup).mp hget
    cases ac with
    | bound ls => exact .inl ⟨ls, hmem, rfl⟩
    | iterating a view cs => exact absurd hmem (h.bound n a view cs)

theorem Plain.fails_eq (h : Plain as) (grow : Blueprint → Json → Option Tree) (n : String) (v : Json) :
    fails grow as n v = false := by
  rw [fails]
  split
  · rename_i hget
    exact absurd ((Table.get?_eq_some_iff h.nodup).mp hget) (h.bound _ _ _ _)
  · rfl

theorem Plain.changesOf_eq (h : Plain as) (grow : Blueprint → Json → Option Tree)
    (values : List (String × Json)) :
    changesOf grow as values = values.map fun e => changeOf grow as e.1 e.2 := by
  rw [changesOf, List.takeWhile_eq_self_iff.mpr fun e _ => by rw [h.fails_eq]; rfl]

/-- Where no form control has two live values, assignments of different properties can be exchanged. -/
theorem Plain.independent (h : Plain as) (hp : PictureOf d₀ as own d i p)
    (sole : ∀ x ∈ own.ids, ∀ j k, (p.label x).isLive j = true → (p.label x).isLive k = true → j = k)
    (hne : n ≠ m) (v w : Json) :
    Change.Independent p (changeOf grow as n v) (changeOf grow as m w) := by
  obtain ⟨more, hs, -⟩ := hp.layout
  -- What a location reads is bound, and then the location is one of that property's as well.
  have hshared : ∀ n ls m w, (n, .bound ls) ∈ as → ∀ r ∈ ls, m ∈ r.expression.reads n →
      ∃ ls', changeOf grow as m w = .inscribe m w ls' ∧ r ∈ ls' := by
    intro n ls m w hn r hr hread
    rcases h.changeOf_cases grow m w with ⟨ls', hm, hc⟩ | ⟨hm, -⟩
    · exact ⟨ls', hc, h.wired.shared _ _ _ _ _ hn hr hm hread⟩
    · exact absurd (h.closed _ _ _ _ hn hr hread) hm
  rcases h.changeOf_cases grow n v with ⟨ls, hn, hv⟩ | ⟨-, hv⟩ <;>
    rcases h.changeOf_cases grow m w with ⟨ls', hm, hw⟩ | ⟨-, hw⟩ <;> rw [hv, hw]
  · refine ⟨hne, fun r hr hread => ?_, fun r hr hread => ?_, fun r hr r' hr' howner hclash => ?_⟩
    · obtain ⟨ls₁, hc, hmem⟩ := hshared n ls m w hn r hr hread
      obtain ⟨-, -, rfl⟩ := Change.inscribe.inj (hw.symm.trans hc)
      exact hmem
    · obtain ⟨ls₁, hc, hmem⟩ := hshared m ls' n v hm r hr hread
      obtain ⟨-, -, rfl⟩ := Change.inscribe.inj (hv.symm.trans hc)
      exact hmem
    · have hplace : r.place = r'.place := by
        rcases hclash with hplace | ⟨j, k, hj, hk, hlive, hlive'⟩
        · exact hplace
        · rw [hj, hk, howner, sole _ (hs.owners _ _ hn r hr) j k hlive hlive']
      exact h.wired.apart _ _ _ _ _ _ hn hr hm hr' hplace
  · refine ⟨hne, fun r hr hread => ?_, fun r hr => ?_, fun r _ r' hr' => ?_⟩
    · obtain ⟨ls₁, hc, hmem⟩ := hshared n ls m w hn r hr hread
      obtain ⟨-, -, rfl⟩ := Change.inscribe.inj (hw.symm.trans hc)
      exact hmem
    · cases hr
    · cases hr'
  · refine ⟨hne, fun r hr => ?_, fun r hr hread => ?_, fun r hr => ?_⟩
    · cases hr
    · obtain ⟨ls₁, hc, hmem⟩ := hshared m ls' n v hm r hr hread
      obtain ⟨-, -, rfl⟩ := Change.inscribe.inj (hv.symm.trans hc)
      exact hmem
    · cases hr
  · refine ⟨hne, fun r hr => ?_, fun r hr => ?_, fun r hr => ?_⟩ <;> cases hr

theorem PictureOf.run_sets (compiled : ∀ n a view, (n, .iterating a view []) ∈ as → view.IsCompiled)
    (order : List (String × Json)) {q : Stage × Instance}
    (h : PictureOf d₀ as own q.1.document q.2 p) :
    PictureOf d₀ as own (Call.run q (order.map fun m => .set m.1 m.2)).1.document
      (Call.run q (order.map fun m => .set m.1 m.2)).2 (Change.applyAll p
        (order.flatMap fun m => changesOf (alone q.2.registry) as (assignmentsOf as m.1 m.2))) := by
  induction order generalizing p q with
  | nil => exact h
  | cons m order ih =>
    have hrest := ih (h.set compiled m.1 m.2)
    have hregistry : (Call.apply q (.set m.1 m.2)).2.registry = q.2.registry := registry_set _ _ _ _
    rw [hregistry] at hrest
    rw [List.flatMap_cons, Change.applyAll_append]
    exact hrest

theorem Plain.applyAll_unwritten (h : Plain as) (grow : Blueprint → Json → Option Tree)
    {values : List (String × Json)} (hvalues : ∀ e ∈ values, e.1 ∉ as.map (·.1)) (p : Picture) :
    (∀ s, (Change.applyAll p (values.map fun e => changeOf grow as e.1 e.2)).treeOf s = p.treeOf s) ∧
      ∀ n ∈ as.map (·.1),
        (Change.applyAll p (values.map fun e => changeOf grow as e.1 e.2)).value n = p.value n := by
  induction values generalizing p with
  | nil => exact ⟨fun _ => rfl, fun _ _ => rfl⟩
  | cons e values ih =>
    have hnot := hvalues e List.mem_cons_self
    rcases h.changeOf_cases grow e.1 e.2 with ⟨ls, hmem, -⟩ | ⟨-, hc⟩
    · exact absurd (List.mem_map_of_mem (f := (·.1)) hmem) hnot
    · obtain ⟨htree, hvalue⟩ := ih (fun e' he' => hvalues e' (List.mem_cons_of_mem _ he'))
        ((Change.inscribe e.1 e.2 []).apply p)
      rw [List.map_cons, Change.applyAll_cons, hc]
      refine ⟨fun s => (htree s).trans (Picture.treeOf_congr (fun _ _ => rfl) fun _ _ => rfl),
        fun n hn => (hvalue n hn).trans (Function.update_of_ne ?_ _ _)⟩
      rintro rfl
      exact hnot hn

/-- The members are set in whatever order, or the object is taken as a whole. -/
theorem sight_run_sets {s : Stage} (hp : PictureOf d₀ as own s.document i p)
    (hplain : Plain as) (hc : Covers members (as.map (·.1)))
    (sole : ∀ x ∈ own.ids, ∀ j k, (p.label x).isLive j = true → (p.label x).isLive k = true → j = k)
    (hperm : order.Perm members) :
    (sight (Call.run (s, i) (order.map fun m => .set m.1 m.2))).1 =
        (sight (Call.run (s, i) [.configure (.object members)])).1 ∧
      ∀ n ∈ as.map (·.1), (Call.run (s, i) (order.map fun m => .set m.1 m.2)).2.get? n =
        (Call.run (s, i) [.configure (.object members)]).2.get? n := by
  have hcompiled : ∀ n a view, (n, .iterating a view []) ∈ as → view.IsCompiled :=
    fun n a view hmem => absurd hmem (hplain.bound n a view [])
  have heach := PictureOf.run_sets (q := (s, i)) hcompiled order hp
  have hwhole : PictureOf d₀ as own (Call.run (s, i) [.configure (.object members)]).1.document
      (Call.run (s, i) [.configure (.object members)]).2 _ := hp.configure hcompiled (.object members)
  have hnull : (Json.object members).isNull = false := rfl
  rw [takings, hnull, if_neg Bool.false_ne_true] at hwhole
  simp only [hplain.changesOf_eq, ← List.map_flatMap] at heach
  -- The properties are assigned in another order, and besides them what no location reads.
  have hdistinct := hc.nodup_assignments hperm
  have horder := Change.applyAll_perm (p := p) ((hc.assignments_perm hperm).map
    fun e => changeOf (alone i.registry) as e.1 e.2) fun c hc c' hc' hne => by
      obtain ⟨e, he, rfl⟩ := List.mem_map.mp hc
      obtain ⟨e', he', rfl⟩ := List.mem_map.mp hc'
      refine hplain.independent hp sole (fun hname => hne ?_) e.2 e'.2
      rw [List.inj_on_of_nodup_map hdistinct he he' hname]
  rw [List.map_append, Change.applyAll_append] at horder
  rw [horder] at heach
  obtain ⟨htree, hvalue⟩ := hplain.applyAll_unwritten (alone i.registry)
    (fun e he => of_decide_eq_true (List.mem_filter.mp he).2) (Change.applyAll p
      ((resolved (.object members) (as.map (·.1))).map fun e => changeOf (alone i.registry) as e.1 e.2))
  refine ⟨?_, fun n hn => ?_⟩
  · rw [heach.sight, hwhole.sight, htree]
  · exact (congrFun heach.values n).trans ((hvalue n hn).trans (congrFun hwhole.values n).symm)

end Plain

/-- After any calls, an instance without regions that takes an object whose members its properties are
below shows the same as if it took the members one after another, in any order. No property stands for
the whole of the data, and no form control has two attributes for its value. -/
theorem sight_configure_members {text : String} {config : Config} {registry : Registry}
    {className : Option String} {data : Option Json} {s : Stage} {i : Instance}
    (h : (Template.new text config registry).instantiate className data = .ok (s, i))
    (calls : List Call) {s' : Stage} {j : Instance} (hrun : Call.run (s, i) calls = (s', j))
    (plain : ∀ n, j.hasProperty n = true → j.anchor? n = none) (noSelf : j.hasProperty selfReference = false)
    (values : ∀ x ∈ s'.document.descendants j.root, s'.document.OneValue x)
    {members order : List (String × Json)} (keys : (members.map (·.1)).Nodup)
    (undotted : ∀ m ∈ members, '.' ∉ m.1.toList)
    (resolves : ∀ n, j.hasProperty n = true → ((Json.object members).resolve? n).isSome = true)
    (perm : order.Perm members) :
    let each := Call.run (s', j) (order.map fun m => .set m.1 m.2)
    let whole := Call.run (s', j) [.configure (.object members)]
    (sight each).1 = (sight whole).1 ∧
      ∀ n, j.hasProperty n = true → each.2.get? n = whole.2.get? n := by
  obtain ⟨b, log, l, id, ss, d, hcompile, hv, hexhibits, hcompiled, hall⟩ := exists_pictureReached_run h
  have hw := wired_accessorsAt ⟨config, (scan text).2⟩ b hexhibits
  have hnodup := nodup_names_accessorsAt hv id
  have hclosed : ∀ n ls r m, (n, .bound ls) ∈ accessorsAt ⟨config, (scan text).2⟩ b id l ss → r ∈ ls →
      m ∈ r.expression.reads n →
      m ∈ (accessorsAt ⟨config, (scan text).2⟩ b id l ss).map (·.1) :=
    fun n ls r m hn hr hm => closed_accessorsAt hv hexhibits hn hr hm
  have hnames : ∀ n ls, (n, .bound ls) ∈ accessorsAt ⟨config, (scan text).2⟩ b id l ss →
      Placeholder.isName n.toList = true := fun n ls hn => isName_accessorsAt hcompile hn
  generalize accessorsAt ⟨config, (scan text).2⟩ b id l ss = as at hcompiled hall hw hnodup hclosed hnames
  generalize Shape.node id (shapesAll ss) = own at hall
  have hj := hall calls
  rw [hrun] at hj
  obtain ⟨hregistry, taken, hpicture⟩ := hj
  generalize Change.applyAll (.ofCopy d) (taken.map fun e =>
    changeOf (alone registry) as e.1 e.2) = p at hpicture
  obtain ⟨more, hs, -⟩ := hpicture.layout
  have hproperty : ∀ n, n ∈ as.map (·.1) ↔ j.hasProperty n = true := fun n => by
    rw [← hpicture.names]
    exact Table.contains_iff.symm
  have hplain : Plain as := by
    refine ⟨hw, hnodup, fun n a view cs hmem => ?_, hclosed⟩
    have hget := (Table.get?_eq_some_iff (t := ⟨as⟩) hnodup).mpr hmem
    rw [← hs.accessors, Table.get?_map, Option.map_eq_some_iff] at hget
    obtain ⟨ac, hac, hemptied⟩ := hget
    cases ac with
    | bound ls => cases hemptied
    | iterating a' view' cs' =>
      have hnone := plain n ((hproperty n).mp (List.mem_map_of_mem (f := (·.1)) hmem))
      rw [anchor?_eq_some.mpr ⟨view', cs', hac⟩] at hnone
      cases hnone
  have hcovers : Covers members (as.map (·.1)) := by
    refine ⟨keys, undotted, hnodup, fun n hn => ?_, fun n hn => resolves n ((hproperty n).mp hn)⟩
    obtain ⟨⟨n', ac⟩, hmem, rfl⟩ := List.mem_map.mp hn
    cases ac with
    | bound ls =>
      refine Placeholder.isDottedName_of_isName (hnames n' ls hmem) fun hself => ?_
      rw [hself, hproperty, noSelf] at hn
      cases hn
    | iterating a view cs => exact absurd hmem (hplain.bound n' a view cs)
  have hsole : ∀ x ∈ own.ids, ∀ a b, (p.label x).isLive a = true → (p.label x).isLive b = true →
      a = b := by
    intro x hx a b ha hb
    have hbelow : x ∈ s'.document.descendants j.root := by
      rw [hs.root, ← Shape.id_extendBy more own, hs.grown.head_holds.descendants hs.grown.head_nodup]
      exact Shape.mem_ids_extendBy.mpr (.inl hx)
    rw [← isLiveValue_eq (hpicture.labels x hx)] at ha hb
    exact (values x hbelow).eq_of_isLiveValue ha hb
  obtain ⟨hsight, hvalues⟩ := sight_run_sets hpicture hplain hcovers hsole perm
  exact ⟨hsight, fun n hn => hvalues n ((hproperty n).mpr hn)⟩

def formText : String :=
  "<form title=\"$\x7buser.name\x7d $\x7bsize\x7d\">$\x7buser.tags.1\x7d" ++
    "<input value=\"$\x7bsize\x7d\"></form>"

def formMembers : List (String × Json) :=
  [("note", .null), ("size", .string "xl"),
    ("user", .object [("name", .string "A"), ("tags", .array [.string "x", .string "y"])])]

theorem sight_configure_members_form :
    ∃ q, (Template.new formText .standard .standard).instantiate none none = .ok q ∧
      (sight (Call.run (Call.run q [.set "size" (.natural 2)])
          (formMembers.reverse.map fun m => .set m.1 m.2))).1 =
        (sight (Call.run (Call.run q [.set "size" (.natural 2)])
          [.configure (.object formMembers)])).1 := by
  obtain ⟨q, hq, hcheck⟩ := exists_of_check (.new formText .standard .standard) none none
    (fun q =>
      let q := Call.run q [.set "size" (.natural 2)]
      decide ((∀ n ∈ q.2.accessors.names, q.2.anchor? n = none ∧
          ((Json.object formMembers).resolve? n).isSome = true) ∧
        q.2.hasProperty selfReference = false ∧
        ∀ x ∈ q.1.document.descendants q.2.root, q.1.document.OneValue x)) (by decide +kernel)
  obtain ⟨hproperties, hself, hvalues⟩ := of_decide_eq_true hcheck
  have hall := fun n hn => hproperties n (Table.contains_iff.mp hn)
  exact ⟨q, hq, (sight_configure_members (s := q.1) (i := q.2) hq [.set "size" (.natural 2)] rfl
    (fun n hn => (hall n hn).1) hself hvalues (by decide) (by decide) (fun n hn => (hall n hn).2)
    (List.reverse_perm _)).1⟩

end Instance

end LiveMarkup
