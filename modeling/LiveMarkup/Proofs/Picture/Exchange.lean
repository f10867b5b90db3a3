import LiveMarkup.Proofs.Picture.Basic

namespace LiveMarkup

namespace Change

variable {p : Picture} {c c' : Change} {cs cs' : List Change} {n m : String} {v w : Json}
  {ls ls' : List BoundLocation}

/-- The changes can be made in either order. -/
def Independent (p : Picture) : Change → Change → Prop
  | .inscribe n _ ls, .inscribe m _ ls' => n ≠ m ∧
      (∀ r ∈ ls, m ∈ r.expression.reads n → r ∈ ls') ∧
      (∀ r ∈ ls', n ∈ r.expression.reads m → r ∈ ls) ∧
      ∀ r ∈ ls, ∀ r' ∈ ls', r.place.owner = r'.place.owner →
        (p.label r.place.owner).Clash r.place r'.place →
        r = r' ∧ (r.expression = .wholeText → n = m)
  | .inscribe n _ ls, .hang m _ _ _ => n ≠ m ∧ ∀ r ∈ ls, m ∉ r.expression.reads n
  | .hang m _ _ _, .inscribe n _ ls => n ≠ m ∧ ∀ r ∈ ls, m ∉ r.expression.reads n
  | .hang n _ a _, .hang m _ b _ => n ≠ m ∧ a ≠ b
  | .pass, _ => True
  | _, .pass => True

/-- A change of values that a text does not read, or that it is written anew for, does not matter. -/
theorem inscribed_value_congr {x : NodeId} {l : Label} {value : String → Option Json}
    (hshared : ∀ r ∈ ls, m ∈ r.expression.reads n → r ∈ ls')
    (text : BoundLocation → String) :
    l.inscribed (BoundLocation.writesAt x (fun r => r.expression.textOf n value) ls ++
        BoundLocation.writesAt x text ls') =
      l.inscribed (BoundLocation.writesAt x
          (fun r => r.expression.textOf n (Function.update value m (some w))) ls ++
        BoundLocation.writesAt x text ls') := by
  refine BoundLocation.inscribed_writesAt_congr (fun _ => BoundLocation.owner_of_mem_writesAt)
    fun r hr hx => ?_
  by_cases hread : m ∈ r.expression.reads n
  · exact .inr ⟨_, BoundLocation.mem_writesAt.mpr ⟨r, hshared r hr hread, hx, rfl⟩, rfl⟩
  · refine .inl (Expression.textOf_congr fun k hk => ?_)
    rw [Function.update_of_ne]
    rintro rfl
    exact hread hk

theorem inscribe_inscribe_comm (h : Independent p (.inscribe n v ls) (.inscribe m w ls')) :
    apply (apply p (.inscribe n v ls)) (.inscribe m w ls') =
      apply (apply p (.inscribe m w ls')) (.inscribe n v ls) := by
  obtain ⟨hne, hread, hread', hclash⟩ := h
  have hvalue : Function.update (Function.update p.value n (some v)) m (some w) =
      Function.update (Function.update p.value m (some w)) n (some v) :=
    Function.update_comm hne _ _ _
  simp only [apply, Picture.withValue, Picture.write, Picture.mk.injEq, true_and]
  refine ⟨?_, hvalue⟩
  funext x
  rw [← Label.inscribed_append, ← Label.inscribed_append, hvalue]
  rw [inscribed_value_congr (w := w) hread]
  rw [inscribed_value_congr (w := v) hread']
  rw [hvalue]
  refine Label.inscribed_comm (fun _ => BoundLocation.owner_of_mem_writesAt)
    (fun _ => BoundLocation.owner_of_mem_writesAt) fun u hu u' hu' huu' => ?_
  obtain ⟨r, hr, hx, rfl⟩ := BoundLocation.mem_writesAt.mp hu
  obtain ⟨r', hr', hx', rfl⟩ := BoundLocation.mem_writesAt.mp hu'
  obtain ⟨rfl, hwhole⟩ := hclash r hr r' hr' (hx.trans hx'.symm) (by rwa [hx])
  rw [Expression.textOf_bound hwhole]

theorem inscribe_hang_comm {a : NodeId} {ts : List Tree}
    (h : Independent p (.inscribe n v ls) (.hang m w a ts)) :
    apply (apply p (.inscribe n v ls)) (.hang m w a ts) =
      apply (apply p (.hang m w a ts)) (.inscribe n v ls) := by
  obtain ⟨hne, hread⟩ := h
  have hvalue : Function.update (Function.update p.value n (some v)) m (some w) =
      Function.update (Function.update p.value m (some w)) n (some v) :=
    Function.update_comm hne _ _ _
  simp only [apply, Picture.withValue, Picture.write, Picture.rehang, Picture.mk.injEq, true_and]
  refine ⟨?_, hvalue⟩
  funext x
  let text (value : String → Option Json) (r : BoundLocation) := r.expression.textOf n value
  let blank (_ : BoundLocation) := ""
  have hsame : (p.label x).inscribed (BoundLocation.writesAt x
        (text (Function.update p.value n (some v))) ls ++ BoundLocation.writesAt x blank []) =
      (p.label x).inscribed (BoundLocation.writesAt x
        (text (Function.update (Function.update p.value n (some v)) m (some w))) ls ++
          BoundLocation.writesAt x blank []) :=
    inscribed_value_congr (fun r hr hm => absurd hm (hread r hr)) blank
  simpa [BoundLocation.writesAt, hvalue] using hsame

theorem hang_hang_comm {a b : NodeId} {ts ts' : List Tree}
    (h : Independent p (.hang n v a ts) (.hang m w b ts')) :
    apply (apply p (.hang n v a ts)) (.hang m w b ts') =
      apply (apply p (.hang m w b ts')) (.hang n v a ts) := by
  obtain ⟨hne, hab⟩ := h
  have hkeep : ∀ {k k' : String} (x z : NodeId) (ts : List Tree), k ≠ k' →
      (if x = z then ts.map fun t => (k, t) else []).filter (·.1 ≠ k') =
        if x = z then ts.map fun t => (k, t) else [] := by
    intro k k' x z ts hk
    rw [List.filter_eq_self]
    intro e he
    split at he
    · obtain ⟨t, -, rfl⟩ := List.mem_map.mp he
      simpa using hk
    · cases he
  simp only [apply, Picture.withValue, Picture.rehang, Picture.mk.injEq, true_and]
  refine ⟨?_, Function.update_comm hne _ _ _⟩
  funext x
  rw [List.filter_append, List.filter_append, hkeep x a ts hne, hkeep x b ts' hne.symm,
    List.filter_filter, List.filter_filter]
  simp only [Bool.and_comm]
  by_cases hx : x = a
  · rw [if_pos hx, if_neg fun e => hab (hx.symm.trans e), List.append_nil, List.append_nil]
  · rw [if_neg hx, List.append_nil, List.append_nil]

theorem apply_comm (h : Independent p c c') : apply (apply p c) c' = apply (apply p c') c := by
  cases c with
  | pass => rfl
  | inscribe n v ls =>
    cases c' with
    | pass => rfl
    | inscribe m w ls' => exact inscribe_inscribe_comm h
    | hang m w b ts' => exact inscribe_hang_comm h
  | hang n v a ts =>
    cases c' with
    | pass => rfl
    | inscribe m w ls' => exact (inscribe_hang_comm h).symm
    | hang m w b ts' => exact hang_hang_comm h

theorem clash_apply (x : NodeId) (q q' : Place) :
    ((apply p c).label x).Clash q q' ↔ (p.label x).Clash q q' := by
  cases c with
  | pass => exact Iff.rfl
  | inscribe n v ls => exact Label.clash_inscribed
  | hang n v a ts => exact Iff.rfl

theorem Independent.apply (h : Independent p c c') (e : Change) : Independent (e.apply p) c c' := by
  cases c with
  | pass => exact h
  | hang n v a ts => cases c' <;> exact h
  | inscribe n v ls =>
    cases c' with
    | pass => exact h
    | hang m w b ts' => exact h
    | inscribe m w ls' =>
      obtain ⟨hne, hread, hread', hclash⟩ := h
      refine ⟨hne, hread, hread', fun r hr r' hr' howner hc => hclash r hr r' hr' howner ?_⟩
      exact (clash_apply _ _ _).mp hc

theorem apply_applyAll_comm (h : ∀ c' ∈ cs', Independent p c c') :
    applyAll (apply p c) cs' = apply (applyAll p cs') c := by
  induction cs' generalizing p with
  | nil => rfl
  | cons c' cs' ih =>
    have hfirst := apply_comm (h c' List.mem_cons_self)
    rw [applyAll, applyAll, List.foldl_cons, List.foldl_cons, hfirst]
    exact ih fun e he => (h e (List.mem_cons_of_mem _ he)).apply c'

theorem applyAll_comm (h : ∀ c ∈ cs, ∀ c' ∈ cs', Independent p c c') :
    applyAll (applyAll p cs) cs' = applyAll (applyAll p cs') cs := by
  induction cs generalizing p with
  | nil => rfl
  | cons c cs ih =>
    have hfirst := apply_applyAll_comm (h c List.mem_cons_self)
    have hrest := @ih (apply p c) fun e he e' he' =>
      (h e (List.mem_cons_of_mem _ he) e' he').apply c
    have hcons : ∀ p, applyAll p (c :: cs) = applyAll (apply p c) cs := fun _ => rfl
    rw [hcons, hcons, hrest, hfirst]

end Change

end LiveMarkup
