import LiveMarkup.Proofs.Markup.LineEnds

/-!
# Outlines

The outline of a tree is all of it but its texts and attribute values. If its names and comments can be
said at all, the markup of a tree is read without an error as a tree with the same outline, whatever
its texts and attribute values are, unless a raw element has its own end tag in its text.
-/

namespace LiveMarkup

inductive Outline where
  | element (name : String) (attributes : List String) (inside : List Outline)
  | comment (value : String)

namespace Label

/-- What the label says but for a text and attribute values can be a part of markup. -/
def IsSayable (l : Label) : Prop :=
  match l.content with
  | .element name => IsTagName name ∧ AreAttributes l.attributes
  | .text _ => True
  | .comment value => IsComment value

/-- A text, or any other node, can stand below a node with the label. -/
def admits (l : Label) (text : Bool) : Bool :=
  match l.content with
  | .element name => !isVoid name && (tagContent name == .markup || text)
  | _ => false

theorem admits_of_admits {l : Label} {b c : Bool} (h : l.admits b = true) (hbc : b = true → c = true) :
    l.admits c = true := by
  unfold admits at h ⊢
  split at h
  · rw [Bool.and_eq_true, Bool.or_eq_true] at h ⊢
    exact ⟨h.1, h.2.imp_right hbc⟩
  · cases h

end Label

namespace Tree

mutual

/-- A text has no outline. -/
def outline : Tree → List Outline
  | .node l ts =>
    match l.content with
    | .element name => [.element name l.attributes.names (outlineAll ts)]
    | .text _ => []
    | .comment value => [.comment value]

def outlineAll : List Tree → List Outline
  | [] => []
  | t :: ts => outline t ++ outlineAll ts

end

mutual

/-- The text in a raw element of the tree has the start of the element's end tag. -/
def breaksOut : Tree → Bool
  | .node l ts =>
    match l.content with
    | .element name =>
      (tagContent name == .rawText &&
        (renderAll true ts).toList.tails.any (closesRaw name)) || breaksOutAny ts
    | _ => false

def breaksOutAny : List Tree → Bool
  | [] => false
  | t :: ts => breaksOut t || breaksOutAny ts

end

/-- All labels can be said, and each node is where a node of its kind can be. -/
inductive IsSayable : Tree → Prop where
  | node {l : Label} {ts : List Tree} (label : l.IsSayable)
      (admitted : ∀ t ∈ ts, l.admits t.isText = true) (below : ∀ t ∈ ts, Tree.IsSayable t) :
      Tree.IsSayable (.node l ts)

theorem Fits.isSayable {preserve : Bool} {parent : Option String} {t : Tree}
    (h : t.Fits preserve parent) : t.IsSayable := by
  induction h with
  | text nonempty kept => exact .node trivial (by simp) (by simp)
  | comment valid => exact .node valid (by simp) (by simp)
  | void named written void => exact .node ⟨named, written⟩ (by simp) (by simp)
  | verbatim named written content inside =>
    refine .node ⟨named, written⟩ (fun t ht => ?_) fun t ht => ?_
    · obtain ⟨value, -, rfl⟩ := List.mem_map.mp ht
      have htext : (leaf (.text value)).isText = true := rfl
      simp [Label.admits, isVoid_of_tagContent content, htext]
    · obtain ⟨value, -, rfl⟩ := List.mem_map.mp ht
      exact .node trivial (by simp) (by simp)
  | markup named written closed content inside apart ih =>
    exact .node ⟨named, written⟩ (fun t ht => by simp [Label.admits, closed, content]) ih

theorem outlineAll_eq (ts : List Tree) : outlineAll ts = ts.flatMap outline := by
  induction ts with
  | nil => rfl
  | cons t ts ih => rw [outlineAll, ih, List.flatMap_cons]

theorem outline_of_isText {t : Tree} (h : t.isText = true) : t.outline = [] := by
  obtain ⟨⟨content, attributes, control⟩, ts⟩ := t
  cases content with
  | text value => rfl
  | element | comment => cases h

theorem breaksOutAny_eq_false {ts : List Tree} :
    breaksOutAny ts = false ↔ ∀ t ∈ ts, t.breaksOut = false := by
  induction ts with
  | nil => simp [breaksOutAny]
  | cons t ts ih => rw [breaksOutAny, Bool.or_eq_false_iff, ih, List.forall_mem_cons]

/-! ### Texts side by side -/

def joinText (value : String) : List Tree → List Tree
  | .node ⟨.text next, _, _⟩ _ :: ts => .leaf (.text (value ++ next)) :: ts
  | ts => if value = "" then ts else .leaf (.text value) :: ts

def joinNext (t : Tree) (ts : List Tree) : List Tree :=
  match t.label.content with
  | .text value => joinText value ts
  | _ => t :: ts

mutual

/-- The tree with texts side by side joined, without empty texts and live values. -/
def joined : Tree → Tree
  | .node l ts =>
    match l.content with
    | .element name => .node ⟨.element name, l.attributes, none⟩ (joinedAll ts)
    | .text value => .leaf (.text value)
    | .comment value => .leaf (.comment value)

def joinedAll : List Tree → List Tree
  | [] => []
  | t :: ts => joinNext (joined t) (joinedAll ts)

end

theorem content_joined (t : Tree) : t.joined.label.content = t.label.content := by
  obtain ⟨⟨content, attributes, control⟩, ts⟩ := t
  cases content <;> rfl

theorem isText_joined (t : Tree) : t.joined.isText = t.isText := by
  rw [isText, isText, content_joined]

theorem joinText_cases (value : String) (ts : List Tree) :
    (∃ next attributes control us rest, ts = .node ⟨.text next, attributes, control⟩ us :: rest ∧
      joinText value ts = .leaf (.text (value ++ next)) :: rest) ∨
    ((∀ t ∈ ts.head?, t.isText = false) ∧
      (value = "" ∧ joinText value ts = ts ∨
        value ≠ "" ∧ joinText value ts = .leaf (.text value) :: ts)) := by
  have hother : ∀ ts : List Tree, (∀ next attributes control us rest,
      ts ≠ .node ⟨.text next, attributes, control⟩ us :: rest) →
      (∀ t ∈ ts.head?, t.isText = false) ∧ (value = "" ∧ joinText value ts = ts ∨
        value ≠ "" ∧ joinText value ts = .leaf (.text value) :: ts) := by
    intro ts hts
    refine ⟨fun t ht => ?_, ?_⟩
    · obtain ⟨⟨content, attributes, control⟩, us⟩ := t
      obtain ⟨rest, rfl⟩ := List.head?_eq_some_iff.mp ht
      cases content with
      | text next => exact absurd rfl (hts next attributes control us rest)
      | element | comment => rfl
    · rw [joinText]
      · by_cases hvalue : value = ""
        · exact .inl ⟨hvalue, if_pos hvalue⟩
        · exact .inr ⟨hvalue, if_neg hvalue⟩
      · exact fun next attributes control us rest he => hts next attributes control us rest he
  cases ts with
  | nil => exact .inr (hother [] (by simp))
  | cons t ts =>
    obtain ⟨⟨content, attributes, control⟩, us⟩ := t
    cases content with
    | text next => exact .inl ⟨next, attributes, control, us, ts, rfl, rfl⟩
    | element | comment => exact .inr (hother _ (by simp))

theorem joinNext_of_text {t : Tree} {value : String} (h : t.label.content = .text value)
    (ts : List Tree) : joinNext t ts = joinText value ts := by
  rw [joinNext, h]

theorem joinNext_of_not_text {t : Tree} (h : t.isText = false) (ts : List Tree) :
    joinNext t ts = t :: ts := by
  unfold joinNext
  split
  · rename_i value heq
    rw [isText, heq] at h
    cases h
  · rfl

theorem exists_value_of_isText {t : Tree} (h : t.isText = true) :
    ∃ value, t.label.content = .text value := by
  rw [isText] at h
  cases hc : t.label.content with
  | text value => exact ⟨value, rfl⟩
  | element | comment => rw [hc] at h; cases h

/-! ### What joining keeps -/

theorem renderIn_of_text {t : Tree} {value : String} (h : t.label.content = .text value) (raw : Bool) :
    renderIn raw t = writtenText raw value := by
  obtain ⟨⟨content, attributes, control⟩, ts⟩ := t
  obtain rfl : content = .text value := h
  exact renderIn_text raw ⟨.text value, attributes, control⟩ value ts

theorem renderAll_joinNext (raw : Bool) (t : Tree) (ts : List Tree) :
    renderAll raw (joinNext t ts) = renderIn raw t ++ renderAll raw ts := by
  cases ht : t.isText with
  | false => rw [joinNext_of_not_text ht, renderAll]
  | true =>
    obtain ⟨value, hvalue⟩ := exists_value_of_isText ht
    rw [joinNext_of_text hvalue, renderIn_of_text hvalue]
    rcases joinText_cases value ts with ⟨next, attributes, control, us, rest, rfl, he⟩ |
      ⟨-, ⟨rfl, he⟩ | ⟨-, he⟩⟩
    · rw [he, renderAll, renderAll, renderIn_of_text rfl, renderIn_of_text rfl, writtenText_append,
        String.append_assoc]
    · have hempty : writtenText raw "" = "" := by cases raw <;> rfl
      rw [he, hempty, String.empty_append]
    · rw [he, renderAll, renderIn_of_text rfl]

mutual

theorem renderIn_joined (raw : Bool) : ∀ t : Tree, renderIn raw t.joined = renderIn raw t
  | .node ⟨.element name, attributes, control⟩ ts => by
    rw [joined, renderIn, renderIn, renderAll_joinedAll]
  | .node ⟨.text value, attributes, control⟩ ts => rfl
  | .node ⟨.comment value, attributes, control⟩ ts => rfl

theorem renderAll_joinedAll (raw : Bool) : ∀ ts : List Tree,
    renderAll raw (joinedAll ts) = renderAll raw ts
  | [] => rfl
  | t :: ts => by
    rw [joinedAll, renderAll_joinNext, renderIn_joined raw t, renderAll_joinedAll raw ts, renderAll]

end

theorem outlineAll_joinNext (t : Tree) (ts : List Tree) :
    outlineAll (joinNext t ts) = outline t ++ outlineAll ts := by
  cases ht : t.isText with
  | false => rw [joinNext_of_not_text ht, outlineAll]
  | true =>
    obtain ⟨value, hvalue⟩ := exists_value_of_isText ht
    rw [joinNext_of_text hvalue, outline_of_isText ht, List.nil_append]
    rcases joinText_cases value ts with ⟨next, attributes, control, us, rest, rfl, he⟩ |
      ⟨-, ⟨-, he⟩ | ⟨-, he⟩⟩
    · rw [he]
      rfl
    · rw [he]
    · rw [he]
      rfl

mutual

theorem outline_joined : ∀ t : Tree, t.joined.outline = t.outline
  | .node ⟨.element name, attributes, control⟩ ts => by
    rw [joined, outline, outline, outlineAll_joinedAll]
  | .node ⟨.text value, attributes, control⟩ ts => rfl
  | .node ⟨.comment value, attributes, control⟩ ts => rfl

theorem outlineAll_joinedAll : ∀ ts : List Tree, outlineAll (joinedAll ts) = outlineAll ts
  | [] => rfl
  | t :: ts => by
    rw [joinedAll, outlineAll_joinNext, outline_joined t, outlineAll_joinedAll ts, outlineAll]

end

mutual

theorem outline_unified : ∀ t : Tree, t.unified.outline = t.outline
  | .node ⟨.element name, attributes, control⟩ ts => by
    rw [unified, outline, outline, Label.unified_element, outlineAll_unifiedAll, Table.names_map]
  | .node ⟨.text value, attributes, control⟩ ts => rfl
  | .node ⟨.comment value, attributes, control⟩ ts => rfl

theorem outlineAll_unifiedAll : ∀ ts : List Tree, outlineAll (unifiedAll ts) = outlineAll ts
  | [] => rfl
  | t :: ts => by
    rw [unifiedAll, outlineAll, outlineAll, outline_unified t, outlineAll_unifiedAll ts]

end

/-! ### Trees that can be said -/

variable {parent : Option String}

structure StandIn (parent : Option String) (ts : List Tree) : Prop where
  fits : ∀ t ∈ ts, t.Fits true parent
  apart : ts.IsChain Apart

theorem StandIn.joinNext {t : Tree} {ts : List Tree} (h : StandIn parent ts)
    (ht : t.isText = false → t.Fits true parent) : StandIn parent (joinNext t ts) := by
  have hkept : ∀ value, IsKept true parent value := fun value => .inl rfl
  cases htext : t.isText with
  | false =>
    rw [joinNext_of_not_text htext]
    exact ⟨List.forall_mem_cons.mpr ⟨ht htext, h.fits⟩,
      List.isChain_cons.mpr ⟨fun _ _ => .inl htext, h.apart⟩⟩
  | true =>
    obtain ⟨value, hvalue⟩ := exists_value_of_isText htext
    rw [joinNext_of_text hvalue]
    rcases joinText_cases value ts with ⟨next, attributes, control, us, rest, rfl, he⟩ |
      ⟨hfirst, ⟨-, he⟩ | ⟨hne, he⟩⟩
    · obtain ⟨hfit, hfits⟩ := List.forall_mem_cons.mp h.fits
      obtain ⟨hnext, hchain⟩ := List.isChain_cons.mp h.apart
      have hnonempty : value ++ next ≠ "" := by
        cases hfit with
        | text nonempty kept => exact fun he => nonempty (String.append_eq_empty_iff.mp he).2
      rw [he]
      refine ⟨List.forall_mem_cons.mpr ⟨.text hnonempty (hkept _), hfits⟩,
        List.isChain_cons.mpr ⟨fun u hu => ?_, hchain⟩⟩
      exact .inr ((hnext u hu).resolve_left (by simp [isText, label, Content.isText]))
    · rw [he]
      exact h
    · rw [he]
      exact ⟨List.forall_mem_cons.mpr ⟨.text hne (hkept _), h.fits⟩,
        List.isChain_cons.mpr ⟨fun u hu => .inr (hfirst u hu), h.apart⟩⟩

theorem joinedAll_of_texts {ts : List Tree} (h : ∀ t ∈ ts, t.isText = true) :
    ∃ value? : Option String, joinedAll ts = value?.toList.map (fun value => leaf (.text value)) ∧
      ∀ value ∈ value?, value ≠ "" ∧ value = renderAll true ts := by
  induction ts with
  | nil => exact ⟨none, rfl, by simp⟩
  | cons t ts ih =>
    obtain ⟨ht, hts⟩ := List.forall_mem_cons.mp h
    obtain ⟨value?, hall, hvalue?⟩ := ih hts
    obtain ⟨value, hvalue⟩ := exists_value_of_isText (t := t.joined) (by rw [isText_joined, ht])
    have hwritten : renderIn true t = value := by
      rw [← renderIn_joined, renderIn_of_text hvalue]
      rfl
    have hrest : renderAll true ts = value?.getD "" := by
      rw [← renderAll_joinedAll, hall]
      cases value? with
      | none => rfl
      | some next => exact renderAll_singleton true _
    rw [joinedAll, joinNext_of_text hvalue, hall, renderAll, hwritten, hrest]
    cases value? with
    | none =>
      by_cases hempty : value = ""
      · exact ⟨none, if_pos hempty, by simp⟩
      · refine ⟨some value, if_neg hempty, fun v hv => ?_⟩
        obtain rfl := Option.some.inj hv
        exact ⟨hempty, by simp⟩
    | some next =>
      refine ⟨some (value ++ next), rfl, fun v hv => ?_⟩
      obtain rfl := Option.some.inj hv
      exact ⟨fun he => (hvalue? next rfl).1 (String.append_eq_empty_iff.mp he).2, rfl⟩

theorem fits_joined {t : Tree} (h : t.IsSayable) (hbreaks : t.breaksOut = false)
    (htext : t.isText = false) (parent : Option String) : t.joined.Fits true parent := by
  induction h generalizing parent with
  | @node l ts hl admitted below ih =>
    obtain ⟨content, attributes, control⟩ := l
    cases content with
    | text value => cases htext
    | comment value => exact .comment hl
    | element name =>
      obtain ⟨named, written⟩ := hl
      rw [breaksOut, Bool.or_eq_false_iff] at hbreaks
      obtain ⟨hraw, hinside⟩ := hbreaks
      rw [breaksOutAny_eq_false] at hinside
      rw [joined]
      dsimp only
      by_cases hcontent : tagContent name = .markup
      · by_cases hvoid : isVoid name = true
        · obtain rfl : ts = [] := by
            refine List.eq_nil_iff_forall_not_mem.mpr fun t ht => ?_
            have hadmits := admitted t ht
            simp [Label.admits, hvoid] at hadmits
          exact .void named written hvoid
        · rw [Bool.not_eq_true] at hvoid
          have hstand : ∀ us : List Tree, (∀ t ∈ us, t ∈ ts) → StandIn (some name) (joinedAll us) := by
            intro us hus
            induction us with
            | nil => exact ⟨by simp [joinedAll], .nil⟩
            | cons t us ihus =>
              obtain ⟨ht, hus⟩ := List.forall_mem_cons.mp hus
              refine (ihus hus).joinNext fun hother => ?_
              exact ih t ht (hinside t ht) (by rwa [isText_joined] at hother) _
          obtain ⟨hfits, hapart⟩ := hstand ts fun _ ht => ht
          exact .markup named written hvoid hcontent hfits hapart
      · have htexts : ∀ t ∈ ts, t.isText = true := by
          intro t ht
          have hadmits := admitted t ht
          simpa [Label.admits, hcontent] using (Bool.and_eq_true_iff.mp hadmits).2
        obtain ⟨value?, hall, hvalue?⟩ := joinedAll_of_texts htexts
        rw [hall]
        refine .verbatim named written hcontent fun value hvalue => ?_
        obtain ⟨hne, hvalue⟩ := hvalue? value hvalue
        refine ⟨hne, fun hverbatim s hs => ?_⟩
        rw [hverbatim, beq_self_eq_true, Bool.true_and, List.any_eq_false, ← hvalue] at hraw
        simpa using hraw s ((List.mem_tails _ _).mpr hs)

end Tree

/-- The markup of a tree that can be said is read without an error as a tree of the same outline. -/
theorem outline_parse_render {t : Tree} (url : String) (h : t.IsSayable)
    (hbreaks : t.breaksOut = false) (htext : t.isText = false) :
    (parse t.render url true).errors = [] ∧
      Tree.outlineAll (parse t.render url true).roots = t.outline := by
  have hrender : t.joined.render = t.render := Tree.renderIn_joined false t
  obtain ⟨hclean, hroots⟩ := parse_render_unified url (Tree.fits_joined h hbreaks htext none)
  rw [hrender] at hclean hroots
  refine ⟨hclean, ?_⟩
  rw [hroots, Tree.outlineAll, Tree.outlineAll, List.append_nil, Tree.outline_unified,
    Tree.outline_joined]

end LiveMarkup
