import LiveMarkup.Proofs.Picture.Repetition
import LiveMarkup.Proofs.Picture.Run

/-!
# Pictures that show the same

A form control without a live value shows the attribute `value`, and a property without a value shows
nothing. Changes keep it that two pictures show the same.
-/

namespace LiveMarkup

namespace Label

/-- The label with the live value that is shown. -/
def shown (l : Label) : Label :=
  if isFormControl l.name then
    { l with control := l.control.orElse fun _ => l.attributes.get? "value" }
  else l

variable {l : Label} {p : Place} {text : String} {ws : List (Place × String)}

theorem shown_of_isFormControl (h : isFormControl l.name = true) :
    l.shown = { l with control := l.control.orElse fun _ => l.attributes.get? "value" } := if_pos h

theorem shown_of_not_isFormControl (h : isFormControl l.name = false) : l.shown = l :=
  if_neg (Bool.eq_false_iff.mp h)

theorem content_shown (l : Label) : l.shown.content = l.content := by
  rw [shown]
  split <;> rfl

theorem attributes_shown (l : Label) : l.shown.attributes = l.attributes := by
  rw [shown]
  split <;> rfl

theorem name_shown (l : Label) : l.shown.name = l.name := congrArg Content.name l.content_shown

theorem isLive_shown (l : Label) (k : Nat) : l.shown.isLive k = l.isLive k := by
  rw [isLive, isLive, name_shown, attributes_shown]

theorem shown_inscribe (l : Label) (p : Place) (text : String) :
    (l.inscribe p text).shown = l.shown.inscribe p text := by
  cases hform : isFormControl l.name with
  | false =>
    rw [shown_of_not_isFormControl hform, shown_of_not_isFormControl]
    rw [name_inscribe, hform]
  | true =>
    have hvalue := get?_value_inscribe hform p text
    rw [shown_of_isFormControl (by rw [name_inscribe, hform]), hvalue]
    cases p with
    | node x =>
      rw [shown_of_isFormControl hform]
      rfl
    | «attribute» x k =>
      have hsame := l.isLive_shown k
      cases hlive : l.isLive k with
      | true =>
        rw [inscribe_of_isLive hlive, inscribe_of_isLive (hsame.trans hlive),
          shown_of_isFormControl hform]
        rfl
      | false =>
        rw [inscribe_of_not_isLive hlive, inscribe_of_not_isLive (hsame.trans hlive),
          shown_of_isFormControl hform]

theorem shown_inscribed (ws : List (Place × String)) (l : Label) :
    (l.inscribed ws).shown = l.shown.inscribed ws := by
  induction ws generalizing l with
  | nil => rfl
  | cons w ws ih => rw [inscribed_cons, inscribed_cons, ih, shown_inscribe]

theorem modify_value_eq_self {es : List (String × String)} {k : Nat}
    (h : (es[k]?).map (·.2) = some text) : es.modify k (fun a => (a.1, text)) = es := by
  refine List.ext_getElem? fun j => ?_
  rw [getElem?_modify_value]
  cases hj : es[j]? with
  | none => rfl
  | some a =>
    rw [Option.map_some]
    split
    · rename_i hjk
      rw [hjk, hj] at h
      rw [← Option.some.inj h]
    · rfl

theorem shown_inscribe_of_textAt? (h : l.textAt? p = some text) : l.shown.inscribe p text = l.shown := by
  cases p with
  | node x =>
    have hvalue : l.shown.content.value? = some text := l.content_shown ▸ h
    generalize l.shown = l at hvalue
    obtain ⟨content, _, _⟩ := l
    cases content <;> cases hvalue <;> rfl
  | «attribute» x k =>
    rw [textAt?] at h
    cases hlive : l.isLive k with
    | true =>
      rw [if_pos hlive] at h
      rw [inscribe_of_isLive ((l.isLive_shown k).trans hlive),
        shown_of_isFormControl (isFormControl_of_isLive hlive), h]
    | false =>
      rw [if_neg (Bool.eq_false_iff.mp hlive)] at h
      rw [inscribe_of_not_isLive ((l.isLive_shown k).trans hlive)]
      rw [attributes_shown, modify_value_eq_self h, ← attributes_shown]

theorem controlValue?_shown (l : Label) : l.shown.controlValue? = l.controlValue? := by
  cases hform : isFormControl l.name with
  | false => rw [shown_of_not_isFormControl hform]
  | true =>
    rw [controlValue?, name_shown, attributes_shown, shown_of_isFormControl hform, controlValue?]
    cases l.control <;> simp

theorem inscribed_eq_self (h : ∀ w ∈ ws, l.inscribe w.1 w.2 = l) : l.inscribed ws = l := by
  induction ws with
  | nil => rfl
  | cons w ws ih =>
    rw [inscribed_cons, h w List.mem_cons_self]
    exact ih fun w' hw' => h w' (List.mem_cons_of_mem _ hw')

theorem shown_inscribe_inscribed (howner : ∀ w ∈ ws, p.owner = w.1.owner)
    (h : ∀ w ∈ ws, ¬ l.Clash p w.1) (htext : l.textAt? p = some text) :
    (l.inscribed ws).shown.inscribe p text = (l.inscribed ws).shown := by
  rw [← shown_inscribe, ← inscribed_inscribe_comm howner fun w hw hclash => absurd hclash (h w hw),
    shown_inscribed, shown_inscribe, shown_inscribe_of_textAt? htext, ← shown_inscribed]

end Label

namespace Picture

variable {p q r : Picture} {n : String} {v w : Json} {ls : List BoundLocation}

/-- The pictures have the same labels as far as they are shown, the same trees below them and the same
texts of values. -/
structure ShowsAs (p q : Picture) : Prop where
  labels : ∀ x, (p.label x).shown = (q.label x).shown
  hung : ∀ x, p.hung x = q.hung x
  texts : ∀ n, Expression.fragmentTextOf p.value (.property n) =
    Expression.fragmentTextOf q.value (.property n)

namespace ShowsAs

theorem refl (p : Picture) : p.ShowsAs p := ⟨fun _ => rfl, fun _ => rfl, fun _ => rfl⟩

theorem trans (h : p.ShowsAs q) (h' : q.ShowsAs r) : p.ShowsAs r :=
  ⟨fun x => (h.labels x).trans (h'.labels x), fun x => (h.hung x).trans (h'.hung x),
    fun n => (h.texts n).trans (h'.texts n)⟩

theorem renderIn_eq (h : p.ShowsAs q) (raw : Bool) (s : Shape) :
    (p.treeOf s).renderIn raw = (q.treeOf s).renderIn raw := by
  induction s generalizing raw with
  | node id cs ih =>
    rw [treeOf_node, treeOf_node]
    refine Tree.renderIn_congr ?_ ?_ (fun raw => ?_) raw
    · rw [← Label.content_shown, h.labels, Label.content_shown]
    · rw [← Label.attributes_shown, h.labels, Label.attributes_shown]
    · rw [Tree.renderAll_append, Tree.renderAll_append, h.hung]
      congr 1
      rw [Tree.renderAll_eq_join, Tree.renderAll_eq_join, List.map_map, List.map_map]
      congr 1
      exact List.map_congr_left fun c hc => ih c hc raw

theorem controls_eq (h : p.ShowsAs q) (s : Shape) : (p.treeOf s).controls = (q.treeOf s).controls := by
  induction s with
  | node id cs ih =>
    simp only [treeOf_node, Tree.controls_node, List.flatMap_append, List.flatMap_map, h.hung]
    rw [← Label.controlValue?_shown, h.labels, Label.controlValue?_shown, List.flatMap_congr ih]

theorem render_eq (h : p.ShowsAs q) (s : Shape) : (p.treeOf s).render = (q.treeOf s).render :=
  h.renderIn_eq false s

theorem fragmentTextOf_update (h : p.ShowsAs q) (hv : v.toText = w.toText) (m : String) :
    Expression.fragmentTextOf (Function.update p.value n (some v)) (.property m) =
      Expression.fragmentTextOf (Function.update q.value n (some w)) (.property m) := by
  by_cases hm : m = n
  · rw [hm, Expression.fragmentTextOf, Expression.fragmentTextOf, Function.update_self,
      Function.update_self, Option.map_some, Option.map_some, hv]
  · rw [Expression.fragmentTextOf, Expression.fragmentTextOf, Function.update_of_ne hm,
      Function.update_of_ne hm]
    exact h.texts m

theorem inscribe (h : p.ShowsAs q) (hv : v.toText = w.toText) (n : String) (ls : List BoundLocation) :
    ((Change.inscribe n v ls).apply p).ShowsAs ((Change.inscribe n w ls).apply q) := by
  refine ⟨fun x => ?_, h.hung, h.fragmentTextOf_update hv⟩
  rw [Change.label_apply, Change.label_apply, Label.shown_inscribed, Label.shown_inscribed, h.labels]
  congr 1
  refine List.map_congr_left fun r _ => congrArg (Prod.mk r.place) ?_
  exact Expression.textOf_congr_text fun m _ => h.fragmentTextOf_update hv m

theorem apply (h : p.ShowsAs q) (c : Change) : (c.apply p).ShowsAs (c.apply q) := by
  cases c with
  | inscribe n v ls => exact h.inscribe rfl n ls
  | hang n v a ts =>
    refine ⟨h.labels, fun x => ?_, h.fragmentTextOf_update rfl⟩
    rw [Change.hung_apply, Change.hung_apply, h.hung]
  | pass => exact h

theorem applyAll (h : p.ShowsAs q) (cs : List Change) :
    (Change.applyAll p cs).ShowsAs (Change.applyAll q cs) := by
  induction cs generalizing p q with
  | nil => exact h
  | cons c cs ih => exact ih (h.apply c)

theorem of_applyAll {cs : List Change} (h : ∀ c ∈ cs, (c.apply p).ShowsAs p) :
    (Change.applyAll p cs).ShowsAs p := by
  induction cs with
  | nil => exact .refl p
  | cons c cs ih =>
    exact ((h c List.mem_cons_self).applyAll cs).trans
      (ih fun c' hc' => h c' (List.mem_cons_of_mem _ hc'))

/-- Nothing is seen of a property that takes a value with the text that it has, if nothing is seen in
its locations. -/
theorem of_inscribe (text : Expression.fragmentTextOf p.value (.property n) = v.toText)
    (unseen : ∀ r ∈ ls, (p.label r.place.owner).shown.inscribe r.place (r.expression.textOf n p.value) =
      (p.label r.place.owner).shown) : ((Change.inscribe n v ls).apply p).ShowsAs p := by
  have htexts : ∀ m, Expression.fragmentTextOf (Function.update p.value n (some v)) (.property m) =
      Expression.fragmentTextOf p.value (.property m) := by
    intro m
    by_cases hm : m = n
    · rw [hm, text, Expression.fragmentTextOf, Function.update_self]
      rfl
    · rw [Expression.fragmentTextOf, Expression.fragmentTextOf, Function.update_of_ne hm]
  refine ⟨fun x => ?_, fun _ => rfl, htexts⟩
  rw [Change.label_apply, Label.shown_inscribed]
  refine Label.inscribed_eq_self fun w hw => ?_
  obtain ⟨r, hr, rfl, rfl⟩ := BoundLocation.mem_writesAt.mp hw
  have hsame : r.expression.textOf n (Function.update p.value n (some v)) =
      r.expression.textOf n p.value := Expression.textOf_congr_text fun m _ => htexts m
  exact (congrArg _ hsame).trans (unseen r hr)

end ShowsAs

end Picture

end LiveMarkup
