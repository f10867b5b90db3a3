import LiveMarkup.Proofs.Instance.Writing

namespace LiveMarkup

namespace Label

variable {l : Label} {p q : Place} {us ws : List (Place × String)}

def inscribed (ws : List (Place × String)) (l : Label) : Label :=
  ws.foldl (fun l w => l.inscribe w.1 w.2) l

theorem inscribed_cons (w : Place × String) (ws : List (Place × String)) (l : Label) :
    l.inscribed (w :: ws) = (l.inscribe w.1 w.2).inscribed ws := rfl

theorem inscribed_append (us ws : List (Place × String)) (l : Label) :
    l.inscribed (us ++ ws) = (l.inscribed us).inscribed ws := List.foldl_append

theorem isLive_inscribed (k : Nat) : (l.inscribed ws).isLive k = l.isLive k := by
  induction ws generalizing l with
  | nil => rfl
  | cons w ws ih => exact ih.trans (isLive_inscribe l w.1 _ k)

theorem clash_inscribed : (l.inscribed ws).Clash p q ↔ l.Clash p q := by
  simp only [Clash, isLive_inscribed]

theorem inscribe_of_isLive {k : Nat} (h : l.isLive k = true) (x : NodeId) (t : String) :
    l.inscribe (.attribute x k) t = { l with control := some t } := if_pos h

theorem inscribe_of_not_isLive {k : Nat} (h : l.isLive k = false) (x : NodeId) (t : String) :
    l.inscribe (.attribute x k) t =
      { l with attributes := ⟨l.attributes.entries.modify k fun a => (a.1, t)⟩ } :=
  if_neg (Bool.eq_false_iff.mp h)

/-- What is written later is all that is left. -/
theorem inscribe_inscribe_of_clash (h : l.Clash p q) (s t : String) :
    (l.inscribe p s).inscribe q t = l.inscribe q t := by
  rcases h with rfl | ⟨j, k, hp, hq, hj, hk⟩
  · cases p with
    | node x =>
      obtain ⟨content, _, _⟩ := l
      cases content <;> rfl
    | «attribute» x k =>
      have hsame := isLive_inscribe l (.attribute x k) s k
      cases hk : l.isLive k with
      | true =>
        rw [hk] at hsame
        rw [inscribe_of_isLive hsame, inscribe_of_isLive hk, inscribe_of_isLive hk]
      | false =>
        rw [hk] at hsame
        rw [inscribe_of_not_isLive hsame, inscribe_of_not_isLive hk, inscribe_of_not_isLive hk]
        dsimp only
        rw [List.modify_modify_eq]
        rfl
  · rw [hp, hq, inscribe_of_isLive ((isLive_inscribe l _ s k).trans hk), inscribe_of_isLive hj,
      inscribe_of_isLive hk]

theorem inscribe_node_comm (l : Label) (x y : NodeId) (k : Nat) (s t : String) :
    (l.inscribe (.node x) s).inscribe (.attribute y k) t =
      (l.inscribe (.attribute y k) t).inscribe (.node x) s := by
  have hsame := isLive_inscribe l (.node x) s k
  cases hk : l.isLive k with
  | true =>
    rw [inscribe_of_isLive (hsame.trans hk), inscribe_of_isLive hk]
    rfl
  | false =>
    rw [inscribe_of_not_isLive (hsame.trans hk), inscribe_of_not_isLive hk]
    rfl

/-- Two attributes are written apart, unless both are the one that controls the element. -/
theorem inscribe_attribute_comm {j k : Nat} (hjk : j ≠ k)
    (h : l.isLive j = false ∨ l.isLive k = false) (x y : NodeId) (s t : String) :
    (l.inscribe (.attribute x j) s).inscribe (.attribute y k) t =
      (l.inscribe (.attribute y k) t).inscribe (.attribute x j) s := by
  have hj := isLive_inscribe l (.attribute y k) t j
  have hk := isLive_inscribe l (.attribute x j) s k
  cases hlivej : l.isLive j with
  | true =>
    have hlivek := h.resolve_left (by rw [hlivej]; exact Bool.noConfusion)
    rw [inscribe_of_not_isLive (hk.trans hlivek), inscribe_of_isLive (hj.trans hlivej),
      inscribe_of_isLive hlivej, inscribe_of_not_isLive hlivek]
  | false =>
    cases hlivek : l.isLive k with
    | true =>
      rw [inscribe_of_isLive (hk.trans hlivek), inscribe_of_not_isLive (hj.trans hlivej),
        inscribe_of_not_isLive hlivej, inscribe_of_isLive hlivek]
    | false =>
      rw [inscribe_of_not_isLive (hk.trans hlivek), inscribe_of_not_isLive (hj.trans hlivej),
        inscribe_of_not_isLive hlivej, inscribe_of_not_isLive hlivek]
      simp only [List.modify_modify_ne _ _ _ hjk]

theorem inscribe_comm (howner : p.owner = q.owner) (h : ¬ l.Clash p q) (s t : String) :
    (l.inscribe p s).inscribe q t = (l.inscribe q t).inscribe p s := by
  have hne : p ≠ q := fun e => h (.inl e)
  cases p with
  | node x =>
    cases q with
    | node y => exact absurd (congrArg Place.node howner) hne
    | «attribute» y k => exact inscribe_node_comm l x y k s t
  | «attribute» x j =>
    cases q with
    | node y => exact (inscribe_node_comm l y x j t s).symm
    | «attribute» y k =>
      obtain rfl : x = y := howner
      refine inscribe_attribute_comm (fun e : j = k => hne (e ▸ rfl)) ?_ x x s t
      by_contra hboth
      rw [not_or, Bool.not_eq_false, Bool.not_eq_false] at hboth
      exact h (.inr ⟨j, k, rfl, rfl, hboth.1, hboth.2⟩)

/-- A write at a place that is written anew later leaves no trace. -/
theorem inscribed_inscribe_of_mem (howner : ∀ w ∈ ws, p.owner = w.1.owner)
    (h : ∃ w ∈ ws, w.1 = p) (s : String) : (l.inscribe p s).inscribed ws = l.inscribed ws := by
  induction ws generalizing l with
  | nil => obtain ⟨_, hw, -⟩ := h; cases hw
  | cons w ws ih =>
    rw [inscribed_cons, inscribed_cons]
    by_cases hclash : l.Clash p w.1
    · rw [inscribe_inscribe_of_clash hclash]
    · rw [inscribe_comm (howner w List.mem_cons_self) hclash]
      refine ih (fun w' hw' => howner w' (List.mem_cons_of_mem _ hw')) ?_
      obtain ⟨w', hw', rfl⟩ := h
      rcases List.mem_cons.mp hw' with rfl | hw'
      · exact absurd (.inl rfl) hclash
      · exact ⟨w', hw', rfl⟩

/-- A write goes to the end, behind those that it clashes with only if they are the same. -/
theorem inscribed_inscribe_comm (howner : ∀ w ∈ ws, p.owner = w.1.owner) {s : String}
    (h : ∀ w ∈ ws, l.Clash p w.1 → (p, s) = w) :
    (l.inscribe p s).inscribed ws = (l.inscribed ws).inscribe p s := by
  induction ws generalizing l with
  | nil => rfl
  | cons w ws ih =>
    have hswap : (l.inscribe p s).inscribe w.1 w.2 = (l.inscribe w.1 w.2).inscribe p s := by
      by_cases hclash : l.Clash p w.1
      · rw [← h w List.mem_cons_self hclash]
      · exact inscribe_comm (howner w List.mem_cons_self) hclash s _
    rw [inscribed_cons, inscribed_cons, hswap]
    refine ih (fun w' hw' => howner w' (List.mem_cons_of_mem _ hw')) fun w' hw' hclash => ?_
    exact h w' (List.mem_cons_of_mem _ hw') ((clash_inscribe _ _ _ _ _).mp hclash)

/-- A write that has been made is not seen again if those that clash with it are the same. -/
theorem inscribe_inscribed_of_mem (howner : ∀ w ∈ ws, p.owner = w.1.owner) {s : String}
    (hmem : (p, s) ∈ ws) (h : ∀ w ∈ ws, l.Clash p w.1 → (p, s) = w) :
    (l.inscribed ws).inscribe p s = l.inscribed ws := by
  rw [← inscribed_inscribe_comm howner h, inscribed_inscribe_of_mem howner ⟨_, hmem, rfl⟩]

theorem inscribed_comm {x : NodeId} (hu : ∀ u ∈ us, u.1.owner = x) (hw : ∀ w ∈ ws, w.1.owner = x)
    (h : ∀ u ∈ us, ∀ w ∈ ws, l.Clash u.1 w.1 → u = w) :
    l.inscribed (us ++ ws) = l.inscribed (ws ++ us) := by
  induction us generalizing l with
  | nil => rw [List.append_nil, List.nil_append]
  | cons u us ih =>
    have hrest : (l.inscribe u.1 u.2).inscribed (us ++ ws) =
        (l.inscribe u.1 u.2).inscribed (ws ++ us) :=
      ih (fun u' hu' => hu u' (List.mem_cons_of_mem _ hu')) fun u' hu' w hw' hclash =>
        h u' (List.mem_cons_of_mem _ hu') w hw' ((clash_inscribe _ _ _ _ _).mp hclash)
    have hfirst : (l.inscribe u.1 u.2).inscribed ws = (l.inscribed ws).inscribe u.1 u.2 :=
      inscribed_inscribe_comm (fun w hw' => (hu u List.mem_cons_self).trans (hw w hw').symm)
        fun w hw' => h u List.mem_cons_self w hw'
    rw [List.cons_append, inscribed_cons, hrest, inscribed_append, hfirst, inscribed_append,
      inscribed_cons]

end Label

namespace BoundLocation

variable {x : NodeId} {text text' : BoundLocation → String} {ls : List BoundLocation}
  {ws : List (Place × String)} {l : Label}

def writesAt (x : NodeId) (text : BoundLocation → String) (ls : List BoundLocation) :
    List (Place × String) :=
  (ls.filter (·.place.owner = x)).map fun r => (r.place, text r)

theorem mem_writesAt {w : Place × String} :
    w ∈ writesAt x text ls ↔ ∃ r ∈ ls, r.place.owner = x ∧ w = (r.place, text r) := by
  rw [writesAt, List.mem_map]
  constructor
  · rintro ⟨r, hr, rfl⟩
    obtain ⟨hmem, hx⟩ := List.mem_filter.mp hr
    exact ⟨r, hmem, by simpa using hx, rfl⟩
  · rintro ⟨r, hmem, hx, rfl⟩
    exact ⟨r, List.mem_filter.mpr ⟨hmem, by simpa using hx⟩, rfl⟩

theorem owner_of_mem_writesAt {w : Place × String} (h : w ∈ writesAt x text ls) : w.1.owner = x := by
  obtain ⟨r, -, hx, rfl⟩ := mem_writesAt.mp h
  exact hx

theorem inscribed_writesAt_congr (hw : ∀ w ∈ ws, w.1.owner = x)
    (h : ∀ r ∈ ls, r.place.owner = x → text r = text' r ∨ ∃ w ∈ ws, w.1 = r.place) :
    l.inscribed (writesAt x text ls ++ ws) = l.inscribed (writesAt x text' ls ++ ws) := by
  induction ls generalizing l with
  | nil => rfl
  | cons r ls ih =>
    have hrest := fun l => @ih l fun r' hr' => h r' (List.mem_cons_of_mem _ hr')
    by_cases hx : r.place.owner = x
    · have hcons : ∀ text, writesAt x text (r :: ls) = (r.place, text r) :: writesAt x text ls := by
        intro text
        rw [writesAt, List.filter_cons_of_pos (by simpa using hx)]
        rfl
      rw [hcons, hcons, List.cons_append, List.cons_append, Label.inscribed_cons,
        Label.inscribed_cons]
      rcases h r List.mem_cons_self hx with hsame | ⟨w, hw', hplace⟩
      · rw [hsame]
        exact hrest _
      · have hlater : ∀ text t, (l.inscribe r.place t).inscribed (writesAt x text ls ++ ws) =
            l.inscribed (writesAt x text ls ++ ws) := by
          intro text t
          refine Label.inscribed_inscribe_of_mem (fun w' hmem => ?_)
            ⟨w, List.mem_append_right _ hw', hplace⟩ t
          rcases List.mem_append.mp hmem with hmem | hmem
          · exact hx.trans (owner_of_mem_writesAt hmem).symm
          · exact hx.trans (hw w' hmem).symm
        rw [hlater, hlater]
        exact hrest l
    · have hskip : ∀ text, writesAt x text (r :: ls) = writesAt x text ls := by
        intro text
        rw [writesAt, List.filter_cons_of_neg (by simpa using hx)]
        rfl
      rw [hskip, hskip]
      exact hrest l

end BoundLocation

end LiveMarkup
