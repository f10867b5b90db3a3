import LiveMarkup.Proofs.Store.Extending

namespace LiveMarkup

namespace Instance

variable {s : Stage} {i : Instance} {b : Blueprint} {name n : String} {v : Json}

theorem defineProperty_withValue (s : Stage) (i : Instance) (name n : String) (v : Json)
    (a : Accessor Instance) : (i.withValue name v).defineProperty s n a =
      ((i.defineProperty s n a).1, (i.defineProperty s n a).2.withValue name v) := by
  unfold defineProperty replaceAccessor withValue withAccessor
  dsimp only
  split
  · rfl
  · split <;> rfl

theorem bindExposures_withValue (s : Stage) (i : Instance) (root : NodeId) (es : List Exposure)
    (name : String) (v : Json) : (i.withValue name v).bindExposures s root es =
      ((i.bindExposures s root es).1, (i.bindExposures s root es).2.1.withValue name v,
        (i.bindExposures s root es).2.2) := by
  induction es generalizing s i with
  | nil => rfl
  | cons e es ih =>
    have hone : (i.withValue name v).bindExposure s root e =
        ((i.bindExposure s root e).1, (i.bindExposure s root e).2.1.withValue name v,
          (i.bindExposure s root e).2.2) := by
      cases e with
      | leaf n records =>
        rw [bindExposure, bindExposure]
        dsimp only
        rw [defineProperty_withValue]
      | iterating n region =>
        rw [bindExposure, bindExposure]
        split
        · rw [defineProperty_withValue]
        · rfl
    rw [bindExposures, hone, bindExposures]
    dsimp only
    rw [ih]

theorem install_withValue (s : Stage) (i : Instance) (b : Blueprint) (name : String) (v : Json) :
    (i.withValue name v).install s b = ((i.install s b).1, (i.install s b).2.withValue name v) := by
  unfold install Instance.bind
  dsimp only
  rw [bindExposures_withValue]
  rfl

theorem assignAllWith_append {build : Build} {values more : List (String × Json)}
    (h : (assignAllWith build s i values).error = none) :
    assignAllWith build s i (values ++ more) =
      assignAllWith build (assignAllWith build s i values).stage (assignAllWith build s i values).self
        more := by
  induction values generalizing s i with
  | nil => rfl
  | cons e values ih =>
    obtain ⟨hfirst, hrest⟩ := assignAllWith_cons_of_ok h
    rw [hrest] at h ⊢
    rw [← ih h, List.cons_append, assignAllWith]
    generalize assignWith build s i e.1 e.2 = o at hfirst
    obtain ⟨s', i', _ | error⟩ := o
    · rfl
    · cases hfirst

theorem get?_of_undefined (undefined : i.hasProperty name = false) : i.accessors.get? name = none := by
  rw [Table.get?_eq_none_iff, ← Table.contains_iff]
  exact Bool.eq_false_iff.mp undefined

theorem set_of_undefined (s : Stage) (undefined : i.hasProperty name = false)
    (below : i.namesBelow name = []) (v : Json) : i.set s name v = ⟨s, i.withValue name v, none⟩ := by
  have hget := get?_of_undefined undefined
  have hnone : i.dependents name v = [] := by
    rw [← List.map_eq_nil_iff, map_fst_dependents, below]
  unfold Instance.set setWith
  rw [hnone, assignAllWith, assignWith, hget]
  rfl

theorem heldValues_withValue (hn : name ∉ b.exposures.map Exposure.name) (i : Instance) (v : Json) :
    (i.withValue name v).heldValues b = i.heldValues b := by
  rw [heldValues_eq, heldValues_eq]
  refine List.filterMap_congr fun e he => ?_
  have hne : e.name ≠ name := fun h => hn (List.mem_map.mpr ⟨e, he, h⟩)
  exact congrArg (Option.map _) (Table.get?_put_of_ne _ _ hne)

/-- The value of a property is written in its turn, whatever it was before. -/
theorem exists_heldValues (hb : b.IsCompiled) (hn : name ∈ b.exposures.map Exposure.name)
    (i : Instance) (v : Json) : ∃ before after : List (String × Json),
      i.heldValues b = before ++ ((i.get? name).map (name, ·)).toList ++ after ∧
      (i.withValue name v).heldValues b = before ++ (name, v) :: after := by
  obtain ⟨x, hx, rfl⟩ := List.mem_map.mp hn
  obtain ⟨es, es', hes⟩ := List.append_of_mem hx
  have hnodup := hb.nodup_exposures
  rw [hes, List.map_append, List.map_cons, List.nodup_middle, List.nodup_cons, ← List.map_append]
    at hnodup
  let held (i : Instance) (e : Exposure) := (i.get? e.name).map fun v => (e.name, v)
  have hothers : ∀ e ∈ es ++ es', held (i.withValue x.name v) e = held i e := by
    intro e he
    have hne : e.name ≠ x.name := fun h => hnodup.1 (List.mem_map.mpr ⟨e, he, h⟩)
    exact congrArg (Option.map _) (Table.get?_put_of_ne _ _ hne)
  refine ⟨es.filterMap (held i), es'.filterMap (held i), ?_, ?_⟩
  · rw [heldValues_eq, hes, List.filterMap_append, List.filterMap_cons, List.append_assoc]
    cases i.get? x.name <;> rfl
  · have hself : held (i.withValue x.name v) x = some (x.name, v) :=
      congrArg (Option.map _) (Table.get?_put_self _ _ _)
    rw [heldValues_eq, hes, List.filterMap_append, List.filterMap_cons_some hself,
      List.filterMap_congr fun e he => hothers e (List.mem_append_left _ he),
      List.filterMap_congr fun e he => hothers e (List.mem_append_right _ he)]

/-- The values that are held for a template and the one of a property among them. If the template does
not have the property, then that comes last, where it is not written. -/
structure HeldSplit (i : Instance) (b : Blueprint) (name : String) (v : Json)
    (before after : List (String × Json)) (former : Option Json) : Prop where
  held : i.heldValues b = before ++ (former.map (name, ·)).toList ++ after
  former : ∀ u, former = some u → i.get? name = some u
  names : ((before ++ (name, v) :: after).map (·.1)).Nodup
  ahead : (i.withValue name v).heldValues b = before ++ (name, v) :: after ∨
    name ∉ b.exposures.map Exposure.name ∧
      (i.withValue name v).heldValues b ++ [(name, v)] = before ++ (name, v) :: after

theorem exists_heldSplit (hb : b.IsCompiled) (i : Instance) (name : String) (v : Json) :
    ∃ before after former, i.HeldSplit b name v before after former := by
  by_cases hn : name ∈ b.exposures.map Exposure.name
  · obtain ⟨before, after, held, ahead⟩ := exists_heldValues hb hn i v
    have hnames := ((i.withValue name v).nodup_heldValues hb).1
    rw [ahead] at hnames
    exact ⟨before, after, i.get? name, held, fun u hu => hu, hnames, .inl ahead⟩
  · obtain ⟨hnodup, hsub⟩ := i.nodup_heldValues hb
    have hnames : ((i.heldValues b ++ [(name, v)]).map (·.1)).Nodup := by
      rw [List.map_append, List.map_singleton, ← List.concat_eq_append, List.nodup_concat]
      exact ⟨fun hmem => hn (hsub hmem), hnodup⟩
    have hahead : (i.withValue name v).heldValues b ++ [(name, v)] = i.heldValues b ++ [(name, v)] := by
      rw [heldValues_withValue hn]
    exact ⟨i.heldValues b, [], none, by simp, fun u => nofun, hnames, .inr ⟨hn, hahead⟩⟩

namespace HeldSplit

variable {before after : List (String × Json)} {former : Option Json} {e x : String × Json}
  (h : i.HeldSplit b name v before after former)
include h

theorem mem_heldValues (he : e ∈ before ++ after) : e ∈ i.heldValues b := by
  rw [h.held]
  rcases List.mem_append.mp he with he | he
  · exact List.mem_append_left _ (List.mem_append_left _ he)
  · exact List.mem_append_right _ he

theorem mem_of_held (he : e ∈ (i.withValue name v).heldValues b) : e ∈ before ++ (name, v) :: after := by
  rcases h.ahead with ahead | ⟨-, ahead⟩
  · exact ahead ▸ he
  · exact ahead ▸ List.mem_append_left _ he

theorem exposed_sublist :
    ((before ++ (name, v) :: after).filter fun e => e.1 ∈ b.exposures.map Exposure.name).Sublist
      ((i.withValue name v).heldValues b) := by
  rcases h.ahead with ahead | ⟨hn, ahead⟩
  · rw [ahead]
    exact List.filter_sublist
  · have hlast : [(name, v)].filter (fun e => e.1 ∈ b.exposures.map Exposure.name) = [] :=
      List.filter_eq_nil_iff.mpr fun e he => by
        rw [List.mem_singleton.mp he, decide_eq_true_eq]
        exact hn
    rw [← ahead, List.filter_append, hlast, List.append_nil]
    exact List.filter_sublist

theorem behind {front back : List (String × Json)}
    (hsplit : before ++ (name, v) :: after = front ++ x :: back)
    (hx : x.1 ∈ b.exposures.map Exposure.name) (he : e ∈ back)
    (hn : e.1 ∈ b.exposures.map Exposure.name) :
    e ∈ (i.withValue name v).heldValues b ∧
      [x.1, e.1].Sublist (b.exposures.map Exposure.name) := by
  have hpair : [x, e].Sublist (before ++ (name, v) :: after) := by
    rw [hsplit]
    exact ((List.singleton_sublist.mpr he).cons_cons x).trans (List.sublist_append_right _ _)
  have hexposed := (hpair.filter fun e => e.1 ∈ b.exposures.map Exposure.name).trans h.exposed_sublist
  have hboth : [x, e].filter (fun e => e.1 ∈ b.exposures.map Exposure.name) = [x, e] := by
    simp only [List.filter_cons, hx, hn, decide_true, if_true, List.filter_nil]
  rw [hboth] at hexposed
  exact ⟨hexposed.subset (by simp), (hexposed.map Prod.fst).trans (names_heldValues_sublist _ b)⟩

end HeldSplit

theorem set_extend_eq (s : Stage) (b : Blueprint) (undefined : i.hasProperty name = false)
    (below : i.namesBelow name = []) (v : Json) :
    ((i.set s name v).self.extend (i.set s name v).stage b).1 =
      assignAllWith (build i.registry) (i.install s b).1 ((i.install s b).2.withValue name v)
        ((i.withValue name v).heldValues b) := by
  have hequipped := equipped_install s (i.withValue name v) b
  rw [set_of_undefined s undefined below v, extend_eq]
  dsimp only
  rw [hequipped.heldValues_eq, hequipped.registry, install_withValue]
  rfl

theorem extend_set_eq (success : (i.extend s b).1.error = none) (name : String) (v : Json) :
    (i.extend s b).1.self.set (i.extend s b).1.stage name v =
      assignAllWith (build i.registry) (i.install s b).1 (i.install s b).2
        (i.heldValues b ++ (name, v) :: (i.extend s b).1.self.dependents name v) := by
  have hequipped := equipped_install s i b
  have hconfined := confined_assignAllWith (build i.registry) (i.install s b).1 (i.install s b).2
    (i.heldValues b)
  unfold Instance.set setWith
  rw [i.extend_eq s b, hequipped.heldValues_eq, hequipped.registry] at success ⊢
  rw [assignAllWith_append success, hconfined.registry, hequipped.registry]

end Instance

end LiveMarkup
