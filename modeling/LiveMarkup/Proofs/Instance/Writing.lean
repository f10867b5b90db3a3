import LiveMarkup.Instance.Assign
import LiveMarkup.Proofs.Document.Codec

namespace LiveMarkup

namespace Label

/-- The live value of a form control stands for the attribute. -/
def isLive (l : Label) (index : Nat) : Bool :=
  isFormControl l.name &&
    (((l.attributes.entries[index]?).map fun a => sameName a.1 "value").getD false)

def inscribe (l : Label) (place : Place) (text : String) : Label :=
  match place with
  | .node _ => { l with content := l.content.withValue text }
  | .attribute _ index =>
    if l.isLive index then { l with control := some text }
    else { l with attributes := ⟨l.attributes.entries.modify index fun a => (a.1, text)⟩ }

def textAt? (l : Label) : Place → Option String
  | .node _ => l.content.value?
  | .attribute _ index =>
    if l.isLive index then l.control.orElse fun _ => l.attributes.get? "value"
    else (l.attributes.entries[index]?).map (·.2)

def controlValue? (l : Label) : Option String :=
  if isFormControl l.name then l.control.orElse fun _ => l.attributes.get? "value" else none

/-- The label has character data or an attribute at the place. -/
def Has (l : Label) : Place → Prop
  | .node _ => l.content.isElement = false
  | .attribute _ index => index < l.attributes.entries.length

/-- What is written at one of the places is read at the other. -/
def Clash (l : Label) (p q : Place) : Prop :=
  p = q ∨ ∃ j k, p = .attribute p.owner j ∧ q = .attribute q.owner k ∧ l.isLive j = true ∧
    l.isLive k = true

variable {l : Label} {p q : Place} {text : String}

theorem getElem?_modify_value (es : List (String × String)) (index k : Nat) (text : String) :
    (es.modify index fun a => (a.1, text))[k]? =
      (es[k]?).map fun a => if index = k then (a.1, text) else a := by
  rw [List.getElem?_modify]
  rfl

theorem name_inscribe (l : Label) (p : Place) (text : String) : (l.inscribe p text).name = l.name := by
  cases p with
  | node id =>
    obtain ⟨content, _, _⟩ := l
    cases content <;> rfl
  | «attribute» owner index =>
    unfold inscribe
    dsimp only
    split <;> rfl

theorem names_inscribe (l : Label) (p : Place) (text : String) :
    (l.inscribe p text).attributes.entries.map (·.1) = l.attributes.entries.map (·.1) := by
  cases p with
  | node id => rfl
  | «attribute» owner index =>
    unfold inscribe
    dsimp only
    split
    · rfl
    · apply List.ext_getElem?
      intro k
      rw [List.getElem?_map, List.getElem?_map, getElem?_modify_value, Option.map_map]
      congr 1
      funext a
      rw [Function.comp_apply]
      split <;> rfl

theorem isElement_inscribe (l : Label) (p : Place) (text : String) :
    (l.inscribe p text).content.isElement = l.content.isElement := by
  cases p with
  | node id =>
    obtain ⟨content, _, _⟩ := l
    cases content <;> rfl
  | «attribute» owner index =>
    unfold inscribe
    dsimp only
    split <;> rfl

theorem isLive_inscribe (l : Label) (p : Place) (text : String) (k : Nat) :
    (l.inscribe p text).isLive k = l.isLive k := by
  have hnames := congrArg (fun ns : List String => ns[k]?) (names_inscribe l p text)
  simp only [List.getElem?_map] at hnames
  have hsame := congrArg (fun n => (n.map fun n => sameName n "value").getD false) hnames
  simp only [Option.map_map] at hsame
  rw [isLive, isLive, name_inscribe]
  congr 1

theorem content_inscribe_attribute (l : Label) (x : NodeId) (k : Nat) (text : String) :
    (l.inscribe (.attribute x k) text).content = l.content := by
  unfold inscribe
  dsimp only
  split <;> rfl

theorem getElem?_inscribe {k : Nat} (h : ∀ x, p = .attribute x k → l.isLive k = true) :
    (l.inscribe p text).attributes.entries[k]? = l.attributes.entries[k]? := by
  cases p with
  | node x => rfl
  | «attribute» x index =>
    unfold inscribe
    dsimp only
    split
    · rfl
    · rename_i hdead
      have hne : index ≠ k := by
        rintro rfl
        exact hdead (h x rfl)
      rw [getElem?_modify_value]
      cases l.attributes.entries[k]? with
      | none => rfl
      | some a => rw [Option.map_some, if_neg hne]

theorem getElem?_inscribe_of_isLive {k : Nat} (p : Place) (text : String)
    (hlive : l.isLive k = true) :
    (l.inscribe p text).attributes.entries[k]? = l.attributes.entries[k]? :=
  getElem?_inscribe fun _ _ => hlive

theorem has_inscribe (l : Label) (p q : Place) (text : String) :
    (l.inscribe p text).Has q ↔ l.Has q := by
  cases q with
  | node id => rw [Has, Has, isElement_inscribe]
  | «attribute» owner index =>
    have hlen := congrArg List.length (names_inscribe l p text)
    rw [List.length_map, List.length_map] at hlen
    rw [Has, Has, hlen]

theorem clash_inscribe (l : Label) (r p q : Place) (text : String) :
    (l.inscribe r text).Clash p q ↔ l.Clash p q := by
  simp only [Clash, isLive_inscribe]

theorem textAt?_inscribe_of_clash (hclash : l.Clash p q) (hq : l.Has q) :
    (l.inscribe q text).textAt? p = some text := by
  rcases hclash with rfl | ⟨j, k, hp, hk, hlivej, hlivek⟩
  · cases p with
    | node id =>
      obtain ⟨content, _, _⟩ := l
      cases content with
      | element name => cases hq
      | text value => rfl
      | comment value => rfl
    | «attribute» owner index =>
      rw [textAt?, isLive_inscribe]
      by_cases hlive : l.isLive index = true
      · rw [if_pos hlive, inscribe, if_pos hlive]
        rfl
      · rw [if_neg hlive, inscribe, if_neg hlive, getElem?_modify_value,
          List.getElem?_eq_getElem hq, Option.map_some, if_pos rfl]
        rfl
  · rw [hp, hk, textAt?, isLive_inscribe, if_pos hlivej, inscribe, if_pos hlivek]
    rfl

theorem get?_modify_of_ne {es : List (String × String)} {name : String} {index : Nat} (text : String)
    (h : ∀ a, es[index]? = some a → a.1 ≠ name) :
    (Table.mk (es.modify index fun a => (a.1, text))).get? name = (Table.mk es).get? name := by
  induction es generalizing index with
  | nil => simp
  | cons e es ih =>
    cases index with
    | zero =>
      have hne : (e.1 == name) = false := by simpa using h e rfl
      simp [Table.get?, hne]
    | succ index =>
      have hrest := @ih index h
      rw [Table.get?, Table.get?] at hrest
      rw [List.modify_succ_cons, Table.get?, Table.get?, List.find?_cons, List.find?_cons]
      by_cases he : (e.1 == name) = true
      · simp [he]
      · rw [Bool.not_eq_true] at he
        rw [he]
        exact hrest

theorem isFormControl_of_isLive {k : Nat} (h : l.isLive k = true) : isFormControl l.name = true :=
  (Bool.and_eq_true_iff.mp h).1

theorem get?_value_inscribe (h : isFormControl l.name = true) (p : Place) (text : String) :
    (l.inscribe p text).attributes.get? "value" = l.attributes.get? "value" := by
  cases p with
  | node x => rfl
  | «attribute» x k =>
    unfold inscribe
    dsimp only
    split
    · rfl
    · rename_i hdead
      refine get?_modify_of_ne text fun a ha hname => hdead ?_
      rw [isLive, h, ha]
      simp [sameName, hname]

/-- Only a write to the attribute that it stands for changes a live value. -/
theorem controlValue?_inscribe (h : ∀ x k, p = .attribute x k → l.isLive k = false) :
    (l.inscribe p text).controlValue? = l.controlValue? := by
  rw [controlValue?, controlValue?, name_inscribe]
  by_cases hform : isFormControl l.name = true
  · rw [if_pos hform, if_pos hform, get?_value_inscribe hform]
    cases p with
    | node x => rfl
    | «attribute» x k => rw [inscribe, h x k rfl, if_neg Bool.false_ne_true]
  · rw [if_neg hform, if_neg hform]

theorem textAt?_inscribe_of_not_clash (text : String) (howner : p.owner = q.owner) (hclash : ¬ l.Clash p q) :
    (l.inscribe q text).textAt? p = l.textAt? p := by
  have hne : p ≠ q := fun e => hclash (.inl e)
  cases p with
  | node id =>
    cases q with
    | node id' => exact absurd (congrArg Place.node howner) hne
    | «attribute» owner index =>
      unfold inscribe
      dsimp only
      split <;> rfl
  | «attribute» owner index =>
    rw [textAt?, textAt?, isLive_inscribe]
    cases q with
    | node id => rfl
    | «attribute» owner' index' =>
      obtain rfl : owner = owner' := howner
      have hindex : index' ≠ index := fun e => hne (e ▸ rfl)
      by_cases hlive : l.isLive index = true
      · have hother : l.isLive index' = false := by
          rw [← Bool.not_eq_true]
          exact fun h => hclash (.inr ⟨index, index', rfl, rfl, hlive, h⟩)
        rw [if_pos hlive, if_pos hlive, get?_value_inscribe (isFormControl_of_isLive hlive), inscribe,
          hother, if_neg Bool.false_ne_true]
      · rw [if_neg hlive, if_neg hlive]
        unfold inscribe
        dsimp only
        split
        · rfl
        · rw [getElem?_modify_value, Option.map_map]
          simp [hindex, Function.comp_def]

/-! ### Writes one after another -/

def inscribeAll (name : String) (values : Table Json) (ls : List BoundLocation) (l : Label) : Label :=
  ls.foldl (fun l p => l.inscribe p.place (p.expression.evaluate name values)) l

variable {name : String} {values : Table Json} {ls : List BoundLocation}

theorem isLive_inscribeAll (k : Nat) : (l.inscribeAll name values ls).isLive k = l.isLive k := by
  induction ls generalizing l with
  | nil => rfl
  | cons r ls ih => exact ih.trans (isLive_inscribe l r.place _ k)

theorem has_inscribeAll : (l.inscribeAll name values ls).Has p ↔ l.Has p := by
  induction ls generalizing l with
  | nil => exact Iff.rfl
  | cons r ls ih => exact ih.trans (has_inscribe l r.place p _)

theorem names_inscribeAll :
    (l.inscribeAll name values ls).attributes.entries.map (·.1) =
      l.attributes.entries.map (·.1) := by
  induction ls generalizing l with
  | nil => rfl
  | cons r ls ih => exact ih.trans (names_inscribe l r.place _)

theorem content_inscribeAll (h : ∀ r ∈ ls, ∃ x k, r.place = .attribute x k) :
    (l.inscribeAll name values ls).content = l.content := by
  induction ls generalizing l with
  | nil => rfl
  | cons r ls ih =>
    obtain ⟨x, k, hr⟩ := h r List.mem_cons_self
    have hfirst := content_inscribe_attribute l x k (r.expression.evaluate name values)
    rw [← hr] at hfirst
    exact (ih fun r' hr' => h r' (List.mem_cons_of_mem _ hr')).trans hfirst

theorem getElem?_inscribeAll_of_isLive {k : Nat} (hlive : l.isLive k = true) :
    (l.inscribeAll name values ls).attributes.entries[k]? = l.attributes.entries[k]? := by
  induction ls generalizing l with
  | nil => rfl
  | cons r ls ih =>
    have hfirst := getElem?_inscribe_of_isLive r.place (r.expression.evaluate name values) hlive
    refine (ih ?_).trans hfirst
    rwa [isLive_inscribe]

theorem textAt?_inscribeAll_of_not_clash (howner : ∀ r ∈ ls, p.owner = r.place.owner)
    (hclash : ∀ r ∈ ls, ¬ l.Clash p r.place) :
    (l.inscribeAll name values ls).textAt? p = l.textAt? p := by
  induction ls generalizing l with
  | nil => rfl
  | cons r ls ih =>
    have hfirst := textAt?_inscribe_of_not_clash (r.expression.evaluate name values)
      (howner r List.mem_cons_self) (hclash r List.mem_cons_self)
    refine (ih (fun r' hr' => howner r' (List.mem_cons_of_mem _ hr')) ?_).trans hfirst
    intro r' hr'
    rw [clash_inscribe]
    exact hclash r' (List.mem_cons_of_mem _ hr')

theorem textAt?_inscribeAll_of_clash (howner : ∀ r ∈ ls, p.owner = r.place.owner)
    (hhas : ∀ r ∈ ls, l.Has r.place)
    (htext : ∀ r ∈ ls, l.Clash p r.place → r.expression.evaluate name values = text)
    (hwritten : l.textAt? p = some text ∨ ∃ r ∈ ls, l.Clash p r.place) :
    (l.inscribeAll name values ls).textAt? p = some text := by
  induction ls generalizing l with
  | nil =>
    rcases hwritten with hread | ⟨r, hr, -⟩
    · exact hread
    · cases hr
  | cons r ls ih =>
    refine ih (fun r' hr' => howner r' (List.mem_cons_of_mem _ hr')) (fun r' hr' => ?_)
      (fun r' hr' => ?_) ?_
    · rw [has_inscribe]
      exact hhas r' (List.mem_cons_of_mem _ hr')
    · rw [clash_inscribe]
      exact htext r' (List.mem_cons_of_mem _ hr')
    · by_cases hclash : l.Clash p r.place
      · left
        rw [textAt?_inscribe_of_clash hclash (hhas r List.mem_cons_self),
          htext r List.mem_cons_self hclash]
      · rw [textAt?_inscribe_of_not_clash _ (howner r List.mem_cons_self) hclash]
        refine hwritten.imp_right ?_
        rintro ⟨r', hr', hclash'⟩
        rcases List.mem_cons.mp hr' with rfl | hr'
        · exact absurd hclash' hclash
        · exact ⟨r', hr', (clash_inscribe l _ _ _ _).mpr hclash'⟩

end Label

namespace Document

/-- The text that a place holds: character data, the value of an attribute, or the live value of a
form control. -/
def textAt? (d : Document) : Place → Option String
  | .node id => d.text? id
  | .attribute owner index =>
    if BoundLocation.isLiveValue d owner index then d.controlValue? owner
    else ((d.attributes owner).entries[index]?).map (·.2)

variable {d : Document} {x : NodeId}

theorem isLiveValue_eq {l : Label} (h : d.label? x = some l) (index : Nat) :
    BoundLocation.isLiveValue d x index = l.isLive index := by
  rw [BoundLocation.isLiveValue, Label.isLive, name?, attributes, h]
  rfl

theorem textAt?_eq (d : Document) (p : Place) :
    d.textAt? p = (d.label? p.owner).bind fun l => l.textAt? p := by
  cases p with
  | node id => rfl
  | «attribute» owner index =>
    rw [textAt?, Place.owner]
    cases hl : d.label? owner with
    | none =>
      rw [BoundLocation.isLiveValue, name?, attributes, hl]
      rfl
    | some l =>
      rw [isLiveValue_eq hl, Option.bind_some, Label.textAt?, attributes, controlValue?, hl,
        Option.bind_some]
      by_cases hlive : l.isLive index = true
      · rw [if_pos hlive, if_pos hlive, if_pos (Label.isFormControl_of_isLive hlive)]
      · rw [if_neg hlive, if_neg hlive]
        rfl

theorem node?_modifyLabel (d : Document) (id : NodeId) (f : Label → Label) :
    (d.modifyLabel id f).node? x =
      (d.node? x).map fun n => { n with label := if x = id then f n.label else n.label } := by
  rw [modifyLabel, node?_modify]
  by_cases hx : x = id
  · subst hx
    simp
  · simp [hx]

theorem node?_eq_of_label (y : NodeId) (f : Label → Label)
    (h : ∀ l, d.label? y = some l → f l = l) (x : NodeId) :
    d.node? x = (d.node? x).map fun n =>
      { n with label := if x = y then f n.label else n.label } := by
  cases hn : d.node? x with
  | none => rfl
  | some n =>
    rw [Option.map_some]
    by_cases hx : x = y
    · rw [if_pos hx, h n.label (hx ▸ label?_of_node? hn)]
    · rw [if_neg hx]

theorem node?_modifyLabel_of_label (y : NodeId) {f : Label → Label} (g : Label → Label)
    (h : ∀ l, d.label? y = some l → f l = g l) (x : NodeId) :
    (d.modifyLabel y f).node? x = (d.node? x).map fun n =>
      { n with label := if x = y then g n.label else n.label } := by
  rw [node?_modifyLabel]
  cases hn : d.node? x with
  | none => rfl
  | some n =>
    rw [Option.map_some, Option.map_some]
    by_cases hx : x = y
    · rw [if_pos hx, if_pos hx, h n.label (hx ▸ label?_of_node? hn)]
    · rw [if_neg hx, if_neg hx]

theorem node?_write_attribute (d : Document) (owner : NodeId) (index : Nat) (text : String)
    (x : NodeId) : (BoundLocation.write d (.attribute owner index) text).node? x =
      (d.node? x).map fun n => { n with
        label := if x = owner then n.label.inscribe (.attribute owner index) text else n.label } := by
  unfold BoundLocation.write
  dsimp only
  cases hl : d.label? owner with
  | none =>
    have hd : (d.setAttributeAt owner index text).1 = d := by
      unfold setAttributeAt modifyAttributeAt
      rw [attributes, hl]
      rfl
    rw [BoundLocation.isLiveValue, name?, hl, Option.map_none, Option.map_none, Option.getD_none,
      Bool.false_and, if_neg Bool.false_ne_true, hd]
    refine node?_eq_of_label owner (fun l => l.inscribe (.attribute owner index) text)
      (fun l hread => ?_) x
    rw [hl] at hread
    cases hread
  | some l =>
    have hlabel : ∀ l', d.label? owner = some l' → l' = l := by
      intro l' hread
      rw [hl] at hread
      exact (Option.some.inj hread).symm
    rw [isLiveValue_eq hl]
    by_cases hlive : l.isLive index = true
    · have hform : isFormControl l.name = true := by
        rw [Label.isLive, Bool.and_eq_true] at hlive
        exact hlive.1
      rw [if_pos hlive, setControlValue, name?, hl, Option.map_some, Option.map_some,
        Option.getD_some, if_pos hform]
      refine node?_modifyLabel_of_label owner (fun l => l.inscribe (.attribute owner index) text)
        (fun l' hread => ?_) x
      rw [hlabel l' hread, Label.inscribe, if_pos hlive]
    · rw [if_neg hlive, setAttributeAt, modifyAttributeAt, attributes, hl, Option.map_some,
        Option.getD_some]
      split
      · refine node?_modifyLabel_of_label owner (fun l => l.inscribe (.attribute owner index) text)
          (fun l' hread => ?_) x
        rw [hlabel l' hread, Label.inscribe, if_neg hlive]
      · rename_i hout
        refine node?_eq_of_label owner (fun l => l.inscribe (.attribute owner index) text)
          (fun l' hread => ?_) x
        rw [hlabel l' hread, Label.inscribe, if_neg hlive]
        rw [List.modify_eq_self (by omega)]

theorem node?_write (d : Document) (p : Place) (text : String) (x : NodeId) :
    (BoundLocation.write d p text).node? x = (d.node? x).map fun n =>
      { n with label := if x = p.owner then n.label.inscribe p text else n.label } := by
  cases p with
  | node id =>
    unfold BoundLocation.write setText
    dsimp only
    cases htext : d.text? id with
    | none =>
      refine node?_eq_of_label id (fun l => l.inscribe (.node id) text) (fun l hread => ?_) x
      rw [text?, hread, Option.bind_some] at htext
      obtain ⟨content, _, _⟩ := l
      cases content with
      | element name => rfl
      | text value => cases htext
      | comment value => cases htext
    | some value => exact node?_modifyLabel d id _
  | «attribute» owner index => exact node?_write_attribute d owner index text x

theorem Tidy.write (h : d.Tidy) (p : Place) (text : String) :
    (BoundLocation.write d p text).Tidy := by
  unfold BoundLocation.write
  split
  · unfold setText
    split
    · exact h.modify _ _
    · exact h
  · split
    · unfold setControlValue
      split
      · exact h.modify _ _
      · exact h
    · unfold setAttributeAt modifyAttributeAt
      split
      · exact h.modify _ _
      · exact h

end Document

namespace Instance

open Document

variable {name : String} {values : Table Json}

theorem tidy_writeLocations {d : Document} (h : d.Tidy) (ls : List BoundLocation) :
    (writeLocations d name values ls).Tidy := by
  induction ls generalizing d with
  | nil => exact h
  | cons r ls ih => exact ih (h.write r.place _)

theorem node?_writeLocations (d : Document) (ls : List BoundLocation) (x : NodeId) :
    (writeLocations d name values ls).node? x = (d.node? x).map fun n =>
      { n with label := n.label.inscribeAll name values (ls.filter (·.place.owner = x)) } := by
  induction ls generalizing d with
  | nil =>
    cases hn : d.node? x <;> simp [writeLocations, Label.inscribeAll, hn]
  | cons r ls ih =>
    rw [writeLocations, List.foldl_cons, ← writeLocations, ih, node?_write, Option.map_map]
    by_cases hx : x = r.place.owner
    · subst hx
      simp [Function.comp_def, Label.inscribeAll]
    · have hx' : r.place.owner ≠ x := Ne.symm hx
      simp [Function.comp_def, hx, hx']

theorem links?_writeLocations (d : Document) (ls : List BoundLocation) (x : NodeId) :
    (writeLocations d name values ls).links? x = d.links? x := by
  rw [links?, links?, node?_writeLocations, Option.map_map]
  rfl

theorem label?_writeLocations (d : Document) (ls : List BoundLocation) (x : NodeId) :
    (writeLocations d name values ls).label? x =
      (d.label? x).map (Label.inscribeAll name values (ls.filter (·.place.owner = x))) := by
  rw [label?, label?, node?_writeLocations, Option.map_map, Option.map_map]
  rfl

end Instance

end LiveMarkup
