import LiveMarkup.Proofs.Markup.Escaping

namespace LiveMarkup

structure IsTagName (name : String) : Prop where
  head : ∃ c cs, name.toList = c :: cs ∧ c.isAlpha = true
  valid : ∀ c ∈ name.toList, isTagNameChar c = true

structure IsAttributeName (name : String) : Prop where
  nonempty : name.toList ≠ []
  inside : ∀ c ∈ name.toList, endsName c = false

structure AreAttributes (attributes : Table String) : Prop where
  nodup : attributes.names.Nodup
  named : ∀ n ∈ attributes.names, IsAttributeName n

structure IsComment (value : String) : Prop where
  unclosed : ¬ "-->".toList <:+: value.toList
  noReturn : '\r' ∉ value.toList

/-- The text of a raw element is not empty. Where it is not escaped it has no end tag of the
element. -/
structure IsVerbatim (name value : String) : Prop where
  nonempty : value ≠ ""
  unclosed : tagContent name = .rawText → ∀ s, s <:+ value.toList → closesRaw name s = false

/-- The white space of a text in an element of that name is not dropped. -/
def IsKept (preserve : Bool) (parent : Option String) (value : String) : Prop :=
  preserve = true ∨ (∃ name ∈ parent, keepsSpace name = true) ∨
    ∃ c ∈ value.toList, isMarkupSpace c = false

theorem IsKept.append {preserve : Bool} {parent : Option String} {before : String}
    (h : IsKept preserve parent before) (after : String) : IsKept preserve parent (before ++ after) := by
  refine h.imp_right (Or.imp_right ?_)
  rintro ⟨c, hc, hspace⟩
  exact ⟨c, by simp [hc], hspace⟩

def nameEnds : List Char := [' ', '\t', '\n', '\r', '\x0c', '>', '<', '/', '\'', '"', '=']

theorem mem_nameEnds_of_endsName {c : Char} (h : endsName c = true) : c ∈ nameEnds := by
  simpa [endsName, isMarkupSpace, nameEnds, or_assoc] using h

theorem endsName_of_isTagNameChar {c : Char} (h : isTagNameChar c = true) : endsName c = false := by
  have hno : nameEnds.all (!isTagNameChar ·) = true := by decide
  rw [← Bool.not_eq_true]
  intro he
  have hc := List.all_eq_true.mp hno c (mem_nameEnds_of_endsName he)
  rw [h] at hc
  cases hc

theorem isTagNameChar_of_isAlpha {c : Char} (h : c.isAlpha = true) : isTagNameChar c = true := by
  simp [isTagNameChar, Char.isAlphanum, h]

theorem not_isMarkupSpace_of_not_endsName {c : Char} (h : endsName c = false) :
    isMarkupSpace c = false := by
  simp only [endsName, Bool.or_eq_false_iff] at h
  exact h.1.1.1.1.1.1

theorem IsTagName.inside {name : String} (h : IsTagName name) :
    ∀ c ∈ name.toList, endsName c = false :=
  fun c hc => endsName_of_isTagNameChar (h.valid c hc)

theorem not_closesRaw_nil (name : String) : closesRaw name [] = false := by
  simp [closesRaw]

theorem closesRaw_append {name : String} {cs : List Char} (h : closesRaw name cs = true)
    (more : List Char) : closesRaw name (cs ++ more) = true := by
  unfold closesRaw at h ⊢
  dsimp only at h ⊢
  have hlen := congrArg List.length (beq_iff_eq.mp h)
  rw [List.length_map, List.length_take] at hlen
  rwa [List.take_append_of_le_length (by omega)]

theorem toList_toLower (name : String) : name.toLower.toList = name.toList.map Char.toLower :=
  String.toList_map

theorem closesRaw_endTag (name : String) (rest : List Char) :
    closesRaw name ('<' :: '/' :: (name.toList ++ rest)) = true := by
  unfold closesRaw
  rw [toList_toLower]
  simp

/-- Only letters are written otherwise in lower case. -/
theorem eq_of_toLower_eq {c d : Char} (h : c.toLower = d) (hd : d.val.toNat < 97) : c = d := by
  unfold Char.toLower at h
  split at h
  · rename_i hupper
    have hval : (c.val + 32).toNat = d.val.toNat := congrArg (fun d => d.val.toNat) h
    have hlow : 65 ≤ c.val.toNat := UInt32.le_iff_toNat_le.mp hupper.1
    have hhigh : c.val.toNat ≤ 90 := UInt32.le_iff_toNat_le.mp hupper.2
    rw [UInt32.toNat_add] at hval
    simp only [UInt32.reduceToNat] at hval
    omega
  · exact h

theorem exists_of_closesRaw {name : String} {cs : List Char} (h : closesRaw name cs = true) :
    ∃ rest, cs = '<' :: '/' :: rest := by
  unfold closesRaw at h
  dsimp only at h
  match cs, beq_iff_eq.mp h with
  | [], h => cases h
  | [_], h => simp at h
  | c :: d :: rest, h =>
    rw [List.length_cons, List.length_cons, List.take_succ_cons, List.take_succ_cons, List.map_cons,
      List.map_cons, List.cons.injEq, List.cons.injEq] at h
    obtain rfl := eq_of_toLower_eq h.1 (by decide)
    obtain rfl := eq_of_toLower_eq h.2.1 (by decide)
    exact ⟨rest, rfl⟩

/-- An end tag opens with `<`, so none starts in a text and goes on behind the next `<`. -/
theorem not_closesRaw_append {name : String} (hname : '<' ∉ name.toList) {s rest : List Char}
    (hs : closesRaw name s = false) (hne : s ≠ []) :
    closesRaw name (s ++ '<' :: rest) = false := by
  have hlower : '<' ∉ name.toLower.toList := by
    rw [toList_toLower, List.mem_map]
    rintro ⟨c, hc, he⟩
    exact hname (eq_of_toLower_eq he (by decide) ▸ hc)
  rw [← Bool.not_eq_true] at hs ⊢
  intro h
  unfold closesRaw at h hs
  dsimp only at h hs
  rcases Nat.lt_or_ge s.length ('<' :: '/' :: name.toLower.toList).length with hshort | hlong
  · have hat := congrArg (·[s.length]?) (beq_iff_eq.mp h)
    obtain ⟨n, hn⟩ := Nat.exists_eq_succ_of_ne_zero fun h0 => hne (List.length_eq_zero_iff.mp h0)
    have hclosing : ('<' :: '/' :: name.toLower.toList)[s.length]? = some '<' := by
      rw [← hat, List.getElem?_map, List.getElem?_take_of_lt hshort]
      simp
    rw [hn, Nat.succ_eq_add_one, List.getElem?_cons_succ] at hclosing
    rcases List.mem_cons.mp (List.mem_of_getElem? hclosing) with hslash | hmem
    · exact absurd hslash (by decide)
    · exact hlower hmem
  · exact hs (by rwa [List.take_append_of_le_length hlong] at h)

theorem isAlpha_of_toLower {c : Char} (h : c.toLower.isAlpha = true) : c.isAlpha = true := by
  unfold Char.toLower at h
  split at h
  · rename_i hupper
    exact Bool.or_eq_true_iff.mpr (.inl (decide_eq_true hupper))
  · exact h

theorem toLower_of_raw {name : String} (h : tagContent name ≠ .markup) :
    name.toLower ∈ ["script", "style", "textarea", "title"] := by
  unfold tagContent at h
  split at h
  all_goals first | exact absurd rfl h | simp [*]

theorem isTagName_of_raw {name : String} (h : tagContent name ≠ .markup) : IsTagName name := by
  have hlower : ∀ s ∈ ["script", "style", "textarea", "title"],
      s.toList ≠ [] ∧ ∀ c ∈ s.toList, c.isAlpha = true := by
    simp
  obtain ⟨hne, hletters⟩ := hlower _ (toLower_of_raw h)
  have halpha : ∀ c ∈ name.toList, c.isAlpha = true := fun c hc =>
    isAlpha_of_toLower (hletters c.toLower (by rw [toList_toLower]; exact List.mem_map_of_mem hc))
  obtain ⟨c, cs, hhead⟩ := List.exists_cons_of_ne_nil
    (fun hnil : name.toList = [] => hne (by rw [toList_toLower, hnil, List.map_nil]))
  exact ⟨⟨c, cs, hhead, halpha c (by simp [hhead])⟩,
    fun c hc => isTagNameChar_of_isAlpha (halpha c hc)⟩

namespace Tree

def isText (t : Tree) : Bool := t.label.content.isText

/-- The two trees do not become one text if they are siblings. -/
def Apart (t u : Tree) : Prop := t.isText = false ∨ u.isText = false

/-- The tree can stand in an element of that name, or outside of all elements. -/
inductive Fits (preserve : Bool) : Option String → Tree → Prop where
  | text {parent : Option String} {value : String} (nonempty : value ≠ "")
      (kept : IsKept preserve parent value) : Fits preserve parent (.leaf (.text value))
  | comment {parent : Option String} {value : String} (valid : IsComment value) :
      Fits preserve parent (.leaf (.comment value))
  | void {parent : Option String} {name : String} {attributes : Table String}
      (named : IsTagName name) (written : AreAttributes attributes) (void : isVoid name = true) :
      Fits preserve parent (.leaf ⟨.element name, attributes, none⟩)
  | verbatim {parent : Option String} {name : String} {attributes : Table String}
      {value? : Option String} (named : IsTagName name) (written : AreAttributes attributes)
      (content : tagContent name ≠ .markup) (inside : ∀ value ∈ value?, IsVerbatim name value) :
      Fits preserve parent (.node ⟨.element name, attributes, none⟩
        (value?.toList.map fun value => .leaf (.text value)))
  | markup {parent : Option String} {name : String} {attributes : Table String}
      {children : List Tree} (named : IsTagName name) (written : AreAttributes attributes)
      (closed : isVoid name = false) (content : tagContent name = .markup)
      (inside : ∀ t ∈ children, Fits preserve (some name) t) (apart : children.IsChain Apart) :
      Fits preserve parent (.node ⟨.element name, attributes, none⟩ children)

mutual

theorem map_rows (depth depth' : Nat) : ∀ t : Tree,
    (t.rows depth).map (·.2) = (t.rows depth').map (·.2)
  | .node l ts => by
    rw [rows, rows, List.map_cons, List.map_cons, map_rowsAll (depth + 1) (depth' + 1) ts]

theorem map_rowsAll (depth depth' : Nat) : ∀ ts : List Tree,
    (rowsAll depth ts).map (·.2) = (rowsAll depth' ts).map (·.2)
  | [] => rfl
  | t :: ts => by
    rw [rowsAll, rowsAll, List.map_append, List.map_append, map_rows depth depth' t,
      map_rowsAll depth depth' ts]

end

theorem labels_node (l : Label) (ts : List Tree) : (node l ts).labels = l :: ts.flatMap labels := by
  have hall : ∀ ts : List Tree, (rowsAll 1 ts).map (·.2) = ts.flatMap labels := by
    intro ts
    induction ts with
    | nil => rfl
    | cons t ts ih => rw [rowsAll, List.map_append, ih, List.flatMap_cons, map_rows 1 0, labels]
  rw [labels, rows, List.map_cons, hall]

theorem renderAll_append (raw : Bool) (ts us : List Tree) :
    renderAll raw (ts ++ us) = renderAll raw ts ++ renderAll raw us := by
  induction ts with
  | nil => rw [List.nil_append, renderAll, String.empty_append]
  | cons t ts ih => rw [List.cons_append, renderAll, renderAll, ih, String.append_assoc]

theorem renderAll_singleton (raw : Bool) (t : Tree) : renderAll raw [t] = renderIn raw t := by
  rw [renderAll, renderAll, String.append_empty]

theorem renderAll_eq_join (raw : Bool) (ts : List Tree) :
    renderAll raw ts = String.join (ts.map (renderIn raw)) := by
  induction ts with
  | nil => rfl
  | cons t ts ih => rw [renderAll, ih, List.map_cons, String.join_cons]

/-- Of the trees below a node only their markup matters, and of a node all but the live value. -/
theorem renderIn_congr {l l' : Label} {ts us : List Tree} (hcontent : l.content = l'.content)
    (hattributes : l.attributes = l'.attributes) (h : ∀ raw, renderAll raw ts = renderAll raw us)
    (raw : Bool) : renderIn raw (.node l ts) = renderIn raw (.node l' us) := by
  obtain ⟨content, as, control⟩ := l
  obtain ⟨content', as', control'⟩ := l'
  obtain rfl : content = content' := hcontent
  obtain rfl : as = as' := hattributes
  cases content with
  | element name => rw [renderIn, renderIn, h]
  | text value => rw [renderIn, renderIn]
  | comment value => rw [renderIn, renderIn]

def writtenText (raw : Bool) (s : String) : String := if raw then s else escapeText s

theorem writtenText_append (raw : Bool) (s t : String) :
    writtenText raw (s ++ t) = writtenText raw s ++ writtenText raw t := by
  cases raw
  · exact escapeText_append s t
  · rfl

theorem renderIn_text (raw : Bool) (l : Label) (value : String) (ts : List Tree) :
    renderIn raw (.node { l with content := .text value } ts) = writtenText raw value := by
  rw [renderIn, writtenText]

end Tree

end LiveMarkup
