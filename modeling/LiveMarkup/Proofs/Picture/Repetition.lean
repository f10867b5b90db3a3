import LiveMarkup.Proofs.Picture.Basic

/-!
# Repeating changes

Changes of different properties that are made once more leave a picture as it is, unless they write a
text that reads what one of them changes later and does not write anew. The trees of each region are hung
anew in the same order, and the last text at each place is the same as before.
-/

namespace LiveMarkup

namespace Label

variable {us ws : List (Place × String)} {x : NodeId} {l : Label}

theorem inscribed_append_of_mem (hu : ∀ u ∈ us, u.1.owner = x) (hw : ∀ w ∈ ws, w.1.owner = x)
    (h : ∀ u ∈ us, ∃ w ∈ ws, w.1 = u.1) : l.inscribed (us ++ ws) = l.inscribed ws := by
  induction us generalizing l with
  | nil => rfl
  | cons u us ih =>
    obtain ⟨w, hmem, hplace⟩ := h u List.mem_cons_self
    have hrest := ih (l := l) (fun u' hu' => hu u' (List.mem_cons_of_mem _ hu'))
      fun u' hu' => h u' (List.mem_cons_of_mem _ hu')
    rw [List.cons_append, inscribed_cons, inscribed_inscribe_of_mem (fun w' hw' => ?_)
      ⟨w, List.mem_append_right _ hmem, hplace⟩, hrest]
    have hx := hu u List.mem_cons_self
    rcases List.mem_append.mp hw' with hw' | hw'
    · exact hx.trans (hu w' (List.mem_cons_of_mem _ hw')).symm
    · exact hx.trans (hw w' hw').symm

end Label

namespace Change

variable {p q : Picture} {c c' : Change} {cs : List Change} {n m : String} {v : Json} {x : NodeId}
  {value : String → Option Json}

def taking? : Change → Option (String × Json)
  | .inscribe n v _ => some (n, v)
  | .hang n v _ _ => some (n, v)
  | .pass => none

def locations : Change → List BoundLocation
  | .inscribe _ _ ls => ls
  | _ => []

def writesAt (x : NodeId) (value : String → Option Json) : Change → List (Place × String)
  | .inscribe n _ ls => BoundLocation.writesAt x (fun r => r.expression.textOf n value) ls
  | _ => []

def region? : Change → Option String
  | .hang n _ _ _ => some n
  | _ => none

def hungAt (x : NodeId) : Change → List (String × Tree)
  | .hang n _ a ts => if x = a then ts.map fun t => (n, t) else []
  | _ => []

def Differ (c c' : Change) : Prop := ∀ n v w, c.taking? = some (n, v) → c'.taking? ≠ some (n, w)

theorem applyAll_cons (p : Picture) (c : Change) (cs : List Change) :
    applyAll p (c :: cs) = applyAll (c.apply p) cs := rfl

theorem applyAll_append (p : Picture) (cs cs' : List Change) :
    applyAll p (cs ++ cs') = applyAll (applyAll p cs) cs' := List.foldl_append

theorem applyAll_concat (p : Picture) (cs : List Change) (c : Change) :
    applyAll p (cs ++ [c]) = c.apply (applyAll p cs) := applyAll_append p cs [c]

theorem value_apply_of_taking (p : Picture) (h : c.taking? = some (n, v)) :
    (c.apply p).value = Function.update p.value n (some v) := by
  cases c with
  | pass => cases h
  | _ =>
    obtain ⟨rfl, rfl⟩ := Prod.mk.inj (Option.some.inj h)
    rfl

theorem value_apply_of_not_taking (p : Picture) (h : ∀ v, c.taking? ≠ some (n, v)) :
    (c.apply p).value n = p.value n := by
  cases hc : c.taking? with
  | none =>
    cases c with
    | pass => rfl
    | _ => cases hc
  | some taking =>
    obtain ⟨m, v⟩ := taking
    rw [value_apply_of_taking p hc, Function.update_of_ne]
    rintro rfl
    exact h v hc

theorem value_applyAll_of_not_taking (p : Picture) (h : ∀ c ∈ cs, ∀ v, c.taking? ≠ some (n, v)) :
    (applyAll p cs).value n = p.value n := by
  induction cs generalizing p with
  | nil => rfl
  | cons c cs ih =>
    rw [applyAll_cons, ih _ fun c' hc' => h c' (List.mem_cons_of_mem _ hc'),
      value_apply_of_not_taking p (h c List.mem_cons_self)]

theorem value_applyAll_of_taking (p : Picture) (hd : cs.Pairwise Differ) (hc : c ∈ cs)
    (h : c.taking? = some (n, v)) : (applyAll p cs).value n = some v := by
  induction cs generalizing p with
  | nil => cases hc
  | cons c' cs ih =>
    obtain ⟨hfirst, hrest⟩ := List.pairwise_cons.mp hd
    rw [applyAll_cons]
    rcases List.mem_cons.mp hc with rfl | hc
    · rw [value_applyAll_of_not_taking _ fun c' hc' w => hfirst c' hc' n v w h,
        value_apply_of_taking p h, Function.update_self]
    · exact ih _ hrest hc

/-- The properties have the values that they take. -/
def Taken (value : String → Option Json) (cs : List Change) : Prop :=
  ∀ c ∈ cs, ∀ n v, c.taking? = some (n, v) → value n = some v

theorem value_apply_of_taken (h : ∀ n v, c.taking? = some (n, v) → p.value n = some v) :
    (c.apply p).value = p.value := by
  cases hc : c.taking? with
  | none =>
    cases c with
    | pass => rfl
    | _ => cases hc
  | some taking =>
    obtain ⟨n, v⟩ := taking
    rw [value_apply_of_taking p hc, ← h n v hc, Function.update_eq_self]

theorem Taken.value_apply (h : Taken p.value (c :: cs)) : (c.apply p).value = p.value :=
  value_apply_of_taken (h c List.mem_cons_self)

theorem Taken.tail (h : Taken value (c :: cs)) : Taken value cs :=
  fun c' hc' => h c' (List.mem_cons_of_mem _ hc')

theorem Taken.value_applyAll (h : Taken p.value cs) : (applyAll p cs).value = p.value := by
  induction cs generalizing p with
  | nil => rfl
  | cons c cs ih =>
    have hsame := h.value_apply
    have hrest : Taken (c.apply p).value cs := by
      rw [hsame]
      exact h.tail
    rw [applyAll_cons, ih hrest, hsame]

theorem label_apply (p : Picture) (c : Change) (x : NodeId) :
    (c.apply p).label x = (p.label x).inscribed (c.writesAt x (c.apply p).value) := by
  cases c <;> rfl

theorem owner_of_mem_writesAt {w : Place × String} (h : w ∈ c.writesAt x value) : w.1.owner = x := by
  cases c with
  | inscribe n v ls => exact BoundLocation.owner_of_mem_writesAt h
  | _ => cases h

theorem owner_of_mem_flatMap_writesAt {w : Place × String}
    (h : w ∈ cs.flatMap (writesAt x value)) : w.1.owner = x := by
  obtain ⟨c, -, hw⟩ := List.mem_flatMap.mp h
  exact owner_of_mem_writesAt hw

/-- Each location holds a text that is right under the final values, or is written anew later. -/
def Settled (value : String → Option Json) : Picture → List Change → Prop
  | _, [] => True
  | p, c :: cs =>
    (∀ n v ls, c = .inscribe n v ls → ∀ r ∈ ls,
      r.expression.textOf n (c.apply p).value = r.expression.textOf n value ∨
        ∃ c' ∈ cs, r ∈ c'.locations) ∧
      Settled value (c.apply p) cs

theorem Settled.label_applyAll (h : Settled value p cs) (x : NodeId) :
    (applyAll p cs).label x = (p.label x).inscribed (cs.flatMap (writesAt x value)) := by
  induction cs generalizing p with
  | nil => rfl
  | cons c cs ih =>
    obtain ⟨hfirst, hrest⟩ := h
    rw [applyAll_cons, ih hrest, label_apply, ← Label.inscribed_append, List.flatMap_cons]
    cases c with
    | inscribe n v ls =>
      refine BoundLocation.inscribed_writesAt_congr (fun _ => owner_of_mem_flatMap_writesAt)
        fun r hr hx => (hfirst n v ls rfl r hr).imp_right fun ⟨c', hc', hr'⟩ => ?_
      cases c' with
      | inscribe n' v' ls' =>
        refine ⟨(r.place, r.expression.textOf n' value), List.mem_flatMap.mpr ⟨_, hc', ?_⟩, rfl⟩
        exact BoundLocation.mem_writesAt.mpr ⟨r, hr', hx, rfl⟩
      | _ => cases hr'
    | _ => rfl

theorem Taken.settled (h : Taken p.value cs) : Settled p.value p cs := by
  induction cs generalizing p with
  | nil => trivial
  | cons c cs ih =>
    have hsame := h.value_apply
    refine ⟨fun n v ls _ r _ => .inl (by rw [hsame]), ?_⟩
    rw [← hsame]
    refine ih ?_
    rw [hsame]
    exact h.tail

/-- A text is right in the end if all that it reads is taken before, or shows as before, or if the
location is written anew when that is taken. -/
theorem settled_of_reads (hd : cs.Pairwise Differ)
    (h : ∀ c ∈ cs, ∀ n v ls, c = .inscribe n v ls → ∀ r ∈ ls, ∀ m ∈ r.expression.reads n,
      ∀ c' ∈ cs, ∀ w, c'.taking? = some (m, w) → r ∈ c'.locations ∨
        Expression.fragmentTextOf p.value (.property m) =
          Expression.fragmentTextOf (applyAll p cs).value (.property m)) :
    Settled (applyAll p cs).value p cs := by
  induction cs generalizing p with
  | nil => trivial
  | cons c cs ih =>
    obtain ⟨hfirst, hrest⟩ := List.pairwise_cons.mp hd
    have hbefore : ∀ c' ∈ cs, ∀ m w, c'.taking? = some (m, w) →
        (c.apply p).value m = p.value m := fun c' hc' m w hw =>
      value_apply_of_not_taking p fun v hv => hfirst c' hc' m v w hv hw
    refine ⟨fun n v ls hc r hr => ?_, ih hrest fun c₁ hc₁ n v ls he r hr m hm c' hc' w hw => ?_⟩
    · by_cases hanew : ∃ c' ∈ cs, r ∈ c'.locations
      · exact .inr hanew
      · refine .inl (Expression.textOf_congr_text fun m hm => ?_)
        by_cases hlater : ∃ c' ∈ cs, ∃ w, c'.taking? = some (m, w)
        · obtain ⟨c', hc', w, hw⟩ := hlater
          have hsame := h c List.mem_cons_self n v ls hc r hr m hm c' (List.mem_cons_of_mem _ hc') w hw
          rcases hsame with hmem | hsame
          · exact absurd ⟨c', hc', hmem⟩ hanew
          · rw [← hsame, Expression.fragmentTextOf, Expression.fragmentTextOf, hbefore c' hc' m w hw]
        · push Not at hlater
          rw [Expression.fragmentTextOf, Expression.fragmentTextOf, applyAll_cons,
            value_applyAll_of_not_taking _ hlater]
    · have hsame := h c₁ (List.mem_cons_of_mem _ hc₁) n v ls he r hr m hm c' (List.mem_cons_of_mem _ hc')
        w hw
      refine hsame.imp_right fun hsame => ?_
      rw [← applyAll_cons, ← hsame, Expression.fragmentTextOf, Expression.fragmentTextOf,
        hbefore c' hc' m w hw]

theorem hung_apply (p : Picture) (c : Change) (x : NodeId) :
    (c.apply p).hung x = (p.hung x).filter (fun e => c.region? ≠ some e.1) ++ c.hungAt x := by
  cases c with
  | hang n v a ts =>
    change (p.hung x).filter (fun e => e.1 ≠ n) ++ _ = _
    congr 1
    refine List.filter_congr fun e _ => ?_
    simp [region?, eq_comm]
  | _ => simp [apply, Picture.withValue, Picture.write, region?, hungAt]

theorem region?_of_mem_hungAt {e : String × Tree} (h : e ∈ c.hungAt x) : c.region? = some e.1 := by
  cases c with
  | hang n v a ts =>
    rw [hungAt] at h
    split at h
    · obtain ⟨t, -, rfl⟩ := List.mem_map.mp h
      rfl
    · cases h
  | _ => cases h

theorem exists_taking_of_region (h : c.region? = some n) : ∃ v, c.taking? = some (n, v) := by
  cases c with
  | hang n' v a ts =>
    obtain rfl := Option.some.inj h
    exact ⟨v, rfl⟩
  | _ => cases h

/-- The trees that changes leave below a node: first those of other regions, and then those of each
region that they hang anew. -/
theorem hung_applyAll (p : Picture) (hd : cs.Pairwise Differ) (x : NodeId) :
    (applyAll p cs).hung x =
      (p.hung x).filter (fun e => some e.1 ∉ cs.map region?) ++ cs.flatMap (hungAt x) := by
  induction cs generalizing p with
  | nil => simp [applyAll]
  | cons c cs ih =>
    obtain ⟨hfirst, hrest⟩ := List.pairwise_cons.mp hd
    -- No later change hangs the trees of this one anew, since they are about different properties.
    have hstay : (c.hungAt x).filter (fun e => some e.1 ∉ cs.map region?) = c.hungAt x := by
      refine List.filter_eq_self.mpr fun e he => decide_eq_true fun hmem => ?_
      obtain ⟨c', hc', hregion⟩ := List.mem_map.mp hmem
      obtain ⟨v, hv⟩ := exists_taking_of_region (region?_of_mem_hungAt he)
      obtain ⟨w, hw⟩ := exists_taking_of_region hregion
      exact hfirst c' hc' _ v w hv hw
    rw [applyAll_cons, ih _ hrest, hung_apply, List.filter_append, hstay, List.filter_filter,
      List.append_assoc, List.flatMap_cons]
    congr 1
    refine List.filter_congr fun e _ => ?_
    rw [← Bool.decide_and, decide_eq_decide, List.map_cons, List.mem_cons, not_or, and_comm]
    exact and_congr_left' ⟨fun h e' => h e'.symm, fun h e' => h e'.symm⟩

/-- The same changes once more change nothing. -/
theorem applyAll_applyAll (hd : cs.Pairwise Differ) (h : Settled (applyAll p cs).value p cs) :
    applyAll (applyAll p cs) cs = applyAll p cs := by
  have htaken : Taken (applyAll p cs).value cs := fun c hc n v => value_applyAll_of_taking p hd hc
  have hlabel : (applyAll (applyAll p cs) cs).label = (applyAll p cs).label := by
    funext x
    rw [htaken.settled.label_applyAll, h.label_applyAll, ← Label.inscribed_append]
    exact Label.inscribed_append_of_mem (fun _ => owner_of_mem_flatMap_writesAt)
      (fun _ => owner_of_mem_flatMap_writesAt) fun u hu => ⟨u, hu, rfl⟩
  have hhung : (applyAll (applyAll p cs) cs).hung = (applyAll p cs).hung := by
    funext x
    have hgone : (cs.flatMap (hungAt x)).filter (fun e => some e.1 ∉ cs.map region?) = [] := by
      refine List.filter_eq_nil_iff.mpr fun e he => ?_
      obtain ⟨c, hc, hmem⟩ := List.mem_flatMap.mp he
      rw [decide_eq_true_eq, not_not]
      exact List.mem_map.mpr ⟨c, hc, region?_of_mem_hungAt hmem⟩
    rw [hung_applyAll _ hd, hung_applyAll p hd, List.filter_append, hgone, List.append_nil,
      List.filter_filter]
    simp only [Bool.and_self]
  exact Picture.ext hlabel hhung htaken.value_applyAll

end Change

end LiveMarkup
