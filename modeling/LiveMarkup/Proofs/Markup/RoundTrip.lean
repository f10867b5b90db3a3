import LiveMarkup.Proofs.Markup.BuiltDocument
import LiveMarkup.Proofs.Markup.Reading
import Mathlib

/-!
# Markup that is read back

The markup that is written for a tree that fits is read as this tree. The trees of a text that was
read without an error fit.
-/

namespace LiveMarkup

namespace Builder

variable {preserve : Bool}

theorem siblings_add (b : Builder) (t : Tree) : (b.add t).siblings = t :: b.siblings := by
  obtain ⟨opened, roots, errors⟩ := b
  cases opened <;> rfl

theorem foldl_add (b : Builder) (e : OpenElement) (ts : List Tree) :
    ts.foldl add { b with opened := e :: b.opened } =
      { b with opened := { e with children := ts.reverse ++ e.children } :: b.opened } := by
  induction ts generalizing e with
  | nil => rfl
  | cons t ts ih =>
    have hadd : add { b with opened := e :: b.opened } t =
        { b with opened := { e with children := t :: e.children } :: b.opened } := rfl
    rw [List.foldl_cons, hadd, ih, List.reverse_cons, List.append_assoc]
    rfl

theorem push_closing (b : Builder) (e : OpenElement) (span : Span) :
    push preserve { b with opened := e :: b.opened } (.closing e.name span) = b.add e.tree := by
  have hfirst : (e :: b.opened).findIdx? (fun e' => sameName e'.name e.name) = some 0 := by
    simp [List.findIdx?_cons, sameName]
  rw [push]
  dsimp only
  rw [hfirst]
  simp [report, close, closeInnermost]

end Builder

/-! ### Reading trees -/

/-- Reading goes on from a text `cs` to a text `rest`, and the builder `b` becomes `b'`. -/
def Reads (preserve : Bool) (cs : List Char) (b : Builder) (rest : List Char) (b' : Builder) :
    Prop :=
  ∀ k : Cursor, k.rest = cs →
    ∃ k' : Cursor, k'.rest = rest ∧ readOn preserve k b = readOn preserve k' b'

namespace Reads

variable {preserve : Bool} {cs rest rest' : List Char} {b b' b'' : Builder}

theorem refl (cs : List Char) (b : Builder) : Reads preserve cs b cs b := fun k hk => ⟨k, hk, rfl⟩

theorem trans (h : Reads preserve cs b rest b') (h' : Reads preserve rest b' rest' b'') :
    Reads preserve cs b rest' b'' := by
  intro k hk
  obtain ⟨k', hk', hread⟩ := h k hk
  obtain ⟨k'', hk'', hread'⟩ := h' k' hk'
  exact ⟨k'', hk'', hread.trans hread'⟩

theorem of_gives {items : List Item} (hne : cs ≠ [])
    (h : ∀ k : Cursor, k.rest = cs → (lexItem k).Gives items ∧ (lexItem k).next.rest = rest) :
    Reads preserve cs b rest (items.foldl (Builder.push preserve) b) := by
  intro k hk
  obtain ⟨hgives, hrest⟩ := h k hk
  exact ⟨_, hrest, readOn_of_gives (hk ▸ hne) hgives b⟩

end Reads

namespace Tree

variable {preserve : Bool} {parent : Option String}

theorem render_element (name : String) (attributes : Table String) (control : Option String)
    (ts : List Tree) (h : isVoid name = false) :
    render (.node ⟨.element name, attributes, control⟩ ts) =
      renderStartTag name attributes ++ renderAll (tagContent name == .rawText) ts ++
        renderEndTag name := by
  rw [render, renderIn, h]
  rfl

theorem Fits.opensMarkup_render {t : Tree} (h : t.Fits preserve parent) (hother : t.isText = false)
    (rest : List Char) : opensMarkup (t.render.toList ++ rest) = true := by
  have htag : ∀ {name : String} (attributes : Table String) (more : List Char), IsTagName name →
      opensMarkup ((renderStartTag name attributes).toList ++ more) = true := by
    intro name attributes more named
    obtain ⟨c, cs, hhead, halpha⟩ := named.head
    rw [toList_renderStartTag, hhead]
    simp [opensMarkup, halpha]
  cases h with
  | text => cases hother
  | comment valid =>
    rw [leaf, Label.comment, render, renderIn]
    simp [opensMarkup]
  | @void _ name attributes named written void =>
    rw [leaf, render, renderIn, if_pos void]
    exact htag attributes rest named
  | @verbatim _ name attributes value? named written content inside =>
    rw [render_element _ _ _ _ (isVoid_of_tagContent content), String.toList_append,
      String.toList_append, List.append_assoc, List.append_assoc]
    exact htag attributes _ named
  | @markup _ name attributes children named written closed content inside apart =>
    rw [render_element _ _ _ _ closed, String.toList_append, String.toList_append,
      List.append_assoc, List.append_assoc]
    exact htag attributes _ named

/-- The tree is read where its markup is written, if no text joins it. -/
def ReadsBack (preserve : Bool) (parent : Option String) (t : Tree) : Prop :=
  ∀ (b : Builder) (rest : List Char), b.parent = parent →
    (t.isText = true → rest = [] ∨ opensMarkup rest = true) →
    (∀ u ∈ b.siblings.head?, t.Apart u) →
    Reads preserve (t.render.toList ++ rest) b rest (b.add t)

theorem reads_renderAll {ts : List Tree} (fits : ∀ t ∈ ts, t.Fits preserve parent)
    (back : ∀ t ∈ ts, t.ReadsBack preserve parent) (apart : ts.IsChain Apart) {b : Builder}
    {rest : List Char} (hb : b.parent = parent) (last : rest = [] ∨ opensMarkup rest = true)
    (first : ∀ t ∈ ts.head?, ∀ u ∈ b.siblings.head?, t.Apart u) :
    Reads preserve ((renderAll false ts).toList ++ rest) b rest (ts.foldl Builder.add b) := by
  induction ts generalizing b with
  | nil =>
    rw [renderAll]
    exact .refl rest b
  | cons t ts ih =>
    obtain ⟨hfit, hfits⟩ := List.forall_mem_cons.mp fits
    obtain ⟨hback, hbacks⟩ := List.forall_mem_cons.mp back
    obtain ⟨hnext, hchain⟩ := List.isChain_cons.mp apart
    have hstop : t.isText = true →
        (renderAll false ts).toList ++ rest = [] ∨
          opensMarkup ((renderAll false ts).toList ++ rest) = true := by
      intro ht
      cases ts with
      | nil =>
        rw [renderAll]
        exact last
      | cons u us =>
        have hu : u.isText = false := (hnext u rfl).resolve_left (by simp [ht])
        rw [renderAll, String.toList_append, List.append_assoc]
        exact .inr ((hfits u List.mem_cons_self).opensMarkup_render hu _)
    have hread := hback b _ hb hstop (first t rfl)
    rw [renderAll, String.toList_append, List.append_assoc, List.foldl_cons]
    refine hread.trans (ih hfits hbacks hchain ?_ ?_)
    · rw [Builder.add, Builder.parent_withSiblings, hb]
    · intro u hu v hv
      rw [Builder.siblings_add] at hv
      obtain rfl := Option.some.inj hv
      exact (hnext u hu).symm

theorem reads_endTag (e : OpenElement) (named : IsTagName e.name) (b : Builder) (rest : List Char) :
    Reads preserve ((renderEndTag e.name).toList ++ rest) { b with opened := e :: b.opened } rest
      (b.add e.tree) := by
  intro k hk
  obtain ⟨span, htokens, herrors, hrest⟩ := lexItem_endTag named hk
  have hgives : (lexItem k).Gives [.closing e.name span] :=
    ⟨herrors, fun rest => by rw [htokens]; rfl⟩
  refine ⟨_, hrest, ?_⟩
  rw [readOn_of_gives (by simp [hk, toList_renderEndTag]) hgives, List.foldl_cons, List.foldl_nil,
    Builder.push_closing]

theorem lexContent_verbatim {k : Cursor} {name : String} {value? : Option String} {rest : List Char}
    (named : IsTagName name) (content : tagContent name ≠ .markup)
    (inside : ∀ value ∈ value?, IsVerbatim name value)
    (hk : k.rest = (renderAll (tagContent name == .rawText)
      (value?.toList.map fun value => .leaf (.text value))).toList ++
      ((renderEndTag name).toList ++ rest)) :
    (lexContent name k).Gives (value?.toList.map .text) ∧
      (lexContent name k).next.rest = (renderEndTag name).toList ++ rest := by
  cases value? with
  | none => exact lexContent_nothing content (by simpa [renderAll] using hk)
  | some value =>
    exact lexContent_written named content (inside value rfl)
      (by simpa [renderAll, renderIn, leaf, Label.text] using hk)

theorem readsBack_text {value : String} (nonempty : value ≠ "")
    (kept : IsKept preserve parent value) : (leaf (.text value)).ReadsBack preserve parent := by
  intro b rest hb hstop hapart
  have hrender : render (.leaf (.text value)) = escapeText value := rfl
  have hread : Reads preserve ((escapeText value).toList ++ rest) b rest _ :=
    .of_gives (List.append_ne_nil_of_left_ne_nil (escapeText_nonempty nonempty) _) fun k hk =>
      lexItem_text nonempty hk (hstop rfl)
  rw [List.foldl_cons, List.foldl_nil, Builder.push_text nonempty (hb ▸ kept) fun u hu =>
    (hapart u hu).resolve_left (by simp [isText, leaf, Label.text, label, Content.isText])] at hread
  rwa [hrender]

theorem readsBack_comment {value : String} (valid : IsComment value) :
    (leaf (.comment value)).ReadsBack preserve parent := by
  intro b rest hb hstop hapart
  have hrender : render (.leaf (.comment value)) = "<!--" ++ value ++ "-->" := rfl
  rw [hrender]
  exact .of_gives (by simp) fun k hk => lexItem_comment valid hk

theorem readsBack_void {name : String} {attributes : Table String} (named : IsTagName name)
    (written : AreAttributes attributes) (void : isVoid name = true) :
    (leaf ⟨.element name, attributes, none⟩).ReadsBack preserve parent := by
  intro b rest hb hstop hapart k hk
  have hcontent : tagContent name = .markup := by
    by_contra hcontent
    rw [isVoid_of_tagContent hcontent] at void
    cases void
  rw [leaf, render, renderIn, if_pos void] at hk
  obtain ⟨span, hgives, hrest⟩ := lexItem_startTag named written hk fun k' hk' => by
    rw [lexContent_of_markup hcontent]
    exact ⟨.nil k', hk'⟩
  refine ⟨_, hrest, ?_⟩
  rw [readOn_of_gives (by simp [hk, toList_renderStartTag]) hgives, List.foldl_cons,
    List.foldl_nil, Builder.push_void void]

theorem readsBack_verbatim {name : String} {attributes : Table String} {value? : Option String}
    (named : IsTagName name) (written : AreAttributes attributes)
    (content : tagContent name ≠ .markup) (inside : ∀ value ∈ value?, IsVerbatim name value) :
    (node ⟨.element name, attributes, none⟩
      (value?.toList.map fun value => .leaf (.text value))).ReadsBack preserve parent := by
  intro b rest hb hstop hapart k hk
  rw [render_element _ _ _ _ (isVoid_of_tagContent content), String.toList_append,
    String.toList_append, List.append_assoc, List.append_assoc] at hk
  obtain ⟨span, hgives, hrest⟩ := lexItem_startTag named written hk fun k' hk' =>
    lexContent_verbatim named content inside hk'
  have hread := @readOn_of_gives preserve k _ (by simp [hk, toList_renderStartTag]) hgives b
  rw [Builder.push_verbatim content inside] at hread
  let e : OpenElement :=
    ⟨name, attributes, span, value?.toList.map fun value => .leaf (.text value)⟩
  have htree : e.tree = .node ⟨.element name, attributes, none⟩
      (value?.toList.map fun value => .leaf (.text value)) := by
    cases value? <;> rfl
  obtain ⟨k', hk', hend⟩ := reads_endTag e named b rest _ hrest
  refine ⟨k', hk', ?_⟩
  rw [hread, hend, htree]

/-- The children are read into a new open element, and the end tag closes it. -/
theorem readsBack_markup {name : String} {attributes : Table String} {children : List Tree}
    (named : IsTagName name) (written : AreAttributes attributes) (closed : isVoid name = false)
    (content : tagContent name = .markup) (inside : ∀ t ∈ children, t.Fits preserve (some name))
    (apart : children.IsChain Apart) (back : ∀ t ∈ children, t.ReadsBack preserve (some name)) :
    (node ⟨.element name, attributes, none⟩ children).ReadsBack preserve parent := by
  intro b rest hb hstop hapart k hk
  rw [render_element _ _ _ _ closed, String.toList_append, String.toList_append,
    List.append_assoc, List.append_assoc] at hk
  have hraw : (tagContent name == .rawText) = false := by simp [content]
  rw [hraw] at hk
  obtain ⟨span, hgives, hrest⟩ := lexItem_startTag named written hk fun k' hk' => by
    rw [lexContent_of_markup content]
    exact ⟨.nil k', hk'⟩
  have hread := @readOn_of_gives preserve k _ (by simp [hk, toList_renderStartTag]) hgives b
  rw [List.foldl_cons, List.foldl_nil, Builder.push_opening closed] at hread
  have hends : opensMarkup ((renderEndTag name).toList ++ rest) = true := by
    rw [toList_renderEndTag]
    rfl
  let inner : Builder := { b with opened := ⟨name, attributes, span, []⟩ :: b.opened }
  have hempty : ∀ t ∈ children.head?, ∀ u ∈ inner.siblings.head?, t.Apart u := by
    simp [inner, Builder.siblings]
  obtain ⟨k', hk', hchildren⟩ := reads_renderAll inside back apart rfl (.inr hends) hempty _ hrest
  rw [Builder.foldl_add, List.append_nil] at hchildren
  have htree : OpenElement.tree ⟨name, attributes, span, children.reverse⟩ =
      .node ⟨.element name, attributes, none⟩ children := by
    rw [OpenElement.tree, List.reverse_reverse]
  obtain ⟨k'', hk'', hend⟩ :=
    reads_endTag ⟨name, attributes, span, children.reverse⟩ named b rest _ hk'
  refine ⟨k'', hk'', ?_⟩
  rw [hread, hchildren, hend, htree]

theorem Fits.readsBack {t : Tree} (h : t.Fits preserve parent) : t.ReadsBack preserve parent := by
  induction h with
  | text nonempty kept => exact readsBack_text nonempty kept
  | comment valid => exact readsBack_comment valid
  | void named written void => exact readsBack_void named written void
  | verbatim named written content inside => exact readsBack_verbatim named written content inside
  | markup named written closed content inside apart ih =>
    exact readsBack_markup named written closed content inside apart ih

end Tree

/-! ### Carriage returns -/

structure Label.NoReturn (l : Label) : Prop where
  text : ∀ value, l.content = .text value → '\r' ∉ value.toList
  values : ∀ a ∈ l.attributes.entries, '\r' ∉ a.2.toList

instance (l : Label) : Decidable l.NoReturn :=
  match l with
  | ⟨.text value, attributes, _⟩ =>
    decidable_of_iff ('\r' ∉ value.toList ∧ ∀ a ∈ attributes.entries, '\r' ∉ a.2.toList)
      ⟨fun h => ⟨fun _ he => Content.text.inj he ▸ h.1, h.2⟩, fun h => ⟨h.text value rfl, h.values⟩⟩
  | ⟨.element _, attributes, _⟩ | ⟨.comment _, attributes, _⟩ =>
    decidable_of_iff (∀ a ∈ attributes.entries, '\r' ∉ a.2.toList)
      ⟨fun h => ⟨fun _ he => (nomatch he), h⟩, fun h => h.values⟩

theorem return_not_mem_of_inside {name : List Char} (h : ∀ c ∈ name, endsName c = false) :
    '\r' ∉ name := fun hmem => absurd (h _ hmem) (by decide)

theorem return_not_mem_renderStartTag {name : String} {attributes : Table String}
    (named : IsTagName name) (written : AreAttributes attributes)
    (h : ∀ a ∈ attributes.entries, '\r' ∉ a.2.toList) :
    '\r' ∉ (renderStartTag name attributes).toList := by
  have hattributes : '\r' ∉ attributes.entries.flatMap writtenAttribute := by
    rw [List.mem_flatMap]
    rintro ⟨a, ha, hmem⟩
    have hname := return_not_mem_of_inside (written.named _ (List.mem_map_of_mem ha)).inside
    have hvalue := return_not_mem_escapeAttribute (h a ha)
    simp [writtenAttribute, hname, hvalue] at hmem
  rw [toList_renderStartTag]
  simp [return_not_mem_of_inside named.inside, hattributes]

theorem return_not_mem_renderEndTag {name : String} (named : IsTagName name) :
    '\r' ∉ (renderEndTag name).toList := by
  simp [renderEndTag, return_not_mem_of_inside named.inside]

namespace Tree

theorem return_not_mem_renderAll {ts : List Tree} (h : ∀ t ∈ ts, '\r' ∉ t.render.toList) :
    '\r' ∉ (renderAll false ts).toList := by
  induction ts with
  | nil => simp [renderAll]
  | cons t ts ih =>
    obtain ⟨ht, hts⟩ := List.forall_mem_cons.mp h
    rw [renderAll, String.toList_append, List.mem_append, not_or]
    exact ⟨ht, ih hts⟩

theorem Fits.return_not_mem_render {preserve : Bool} {parent : Option String} {t : Tree}
    (h : t.Fits preserve parent) (hplain : ∀ l ∈ t.labels, l.NoReturn) :
    '\r' ∉ t.render.toList := by
  induction h with
  | @text parent value nonempty kept =>
    exact return_not_mem_escapeText ((hplain _ List.mem_cons_self).text value rfl)
  | @comment parent value valid =>
    have hrender : render (.leaf (.comment value)) = "<!--" ++ value ++ "-->" := rfl
    rw [hrender]
    simp [valid.noReturn]
  | @void parent name attributes named written void =>
    rw [leaf, render, renderIn, if_pos void]
    exact return_not_mem_renderStartTag named written (hplain _ List.mem_cons_self).values
  | @verbatim parent name attributes value? named written content inside =>
    rw [labels_node, List.forall_mem_cons] at hplain
    have htag := return_not_mem_renderStartTag named written hplain.1.values
    have hend := return_not_mem_renderEndTag named
    have hinside : '\r' ∉ (renderAll (tagContent name == .rawText)
        (value?.toList.map fun value => .leaf (.text value))).toList := by
      cases value? with
      | none => simp [renderAll]
      | some value =>
        have hvalue : '\r' ∉ value.toList :=
          (hplain.2 (.text value) (by simp [leaf, labels_node])).text value rfl
        have hwritten := return_not_mem_escapeText hvalue
        cases hraw : tagContent name == .rawText <;>
          simp [renderAll, renderIn, leaf, Label.text, hvalue, hwritten]
    rw [render_element _ _ _ _ (isVoid_of_tagContent content)]
    simp [htag, hinside, hend]
  | @markup parent name attributes children named written closed content inside apart ih =>
    rw [labels_node, List.forall_mem_cons] at hplain
    have htag := return_not_mem_renderStartTag named written hplain.1.values
    have hend := return_not_mem_renderEndTag named
    have hinside : '\r' ∉ (renderAll false children).toList :=
      return_not_mem_renderAll fun t ht => ih t ht fun l hl =>
        hplain.2 l (List.mem_flatMap.mpr ⟨t, ht, hl⟩)
    have hraw : (tagContent name == .rawText) = false := by simp [content]
    rw [render_element _ _ _ _ closed, hraw]
    simp [htag, hinside, hend]

end Tree

/-! ### Texts and documents -/

theorem unifyLineEnds_of_no_return {cs : List Char} (h : '\r' ∉ cs) : unifyLineEnds cs = cs := by
  fun_induction unifyLineEnds cs with
  | case1 => rfl
  | case2 rest ih | case3 rest _ ih => exact absurd List.mem_cons_self h
  | case4 c rest _ _ ih => rw [ih fun hmem => h (List.mem_cons_of_mem _ hmem)]

/-- The markup of a tree that fits is read as this tree. -/
theorem parse_render_of_fits {t : Tree} {preserve : Bool} (url : String)
    (h : t.Fits preserve none) (hplain : ∀ l ∈ t.labels, l.NoReturn) :
    (parse t.render url preserve).errors = [] ∧ (parse t.render url preserve).roots = [t] := by
  have hunified := unifyLineEnds_of_no_return (h.return_not_mem_render hplain)
  obtain ⟨k, hk, hread⟩ := h.readsBack .start [] rfl (fun _ => .inl rfl)
    (by simp [Builder.siblings, Builder.start]) ⟨.start, unifyLineEnds t.render.toList⟩
    (by rw [hunified, List.append_nil])
  rw [readOn_end hk] at hread
  have hbuilder : (Builder.start.add t).finish = Builder.start.add t := rfl
  constructor
  · rw [errors_parse]
    change (readOn preserve _ .start).1 ++ (readOn preserve _ .start).2.finish.errors = []
    rw [hread, hbuilder]
    rfl
  · rw [roots_parse]
    change (readOn preserve _ .start).2.finish.roots.reverse = [t]
    rw [hread, hbuilder]
    rfl

/-- Every tree that is read without an error fits outside of all elements. -/
theorem parse_fits {text url : String} {preserve : Bool}
    (h : (parse text url preserve).errors = []) :
    ∀ t ∈ (parse text url preserve).roots, t.Fits preserve none := by
  let k : Cursor := ⟨.start, unifyLineEnds text.toList⟩
  rw [errors_parse] at h
  obtain ⟨hlexed, hbuilt⟩ : (readOn preserve k .start).1 = [] ∧
      (readOn preserve k .start).2.finish.errors = [] := List.append_eq_nil_iff.mp h
  obtain ⟨herrors, -, hroots⟩ := Builder.finish_of_no_errors hbuilt
  have hstart : Builder.start.Sound preserve := ⟨by simp [Builder.start], by simp [Builder.start],
    by simp [Builder.start], .nil⟩
  have hsound := hstart.readOn (return_not_mem_unifyLineEnds text.toList)
    (by simp [Builder.Awaits, Builder.parent, Builder.start]) hlexed herrors
  intro t ht
  rw [roots_parse, List.mem_reverse] at ht
  have hmem : t ∈ (readOn preserve k .start).2.finish.roots := ht
  rw [hroots] at hmem
  exact hsound.roots.fits t hmem

namespace Document

/-- The markup of every root of the document of a text that is read without an error is read
without an error, with the same white space kept, as one root with the same tree. The URL is only
what the text is reported under. -/
theorem parse_render {text url : String} {preserve : Bool}
    (clean : (parse text url preserve).errors = []) {d : Document} {roots : List NodeId}
    (hd : ofTrees (parse text url preserve).roots = (d, roots)) (url' : String) :
    ∀ root ∈ roots, ∃ t, d.tree? root = some t ∧ ((∀ l ∈ t.labels, l.NoReturn) →
      (parse (d.render root) url' preserve).errors = [] ∧
        (parse (d.render root) url' preserve).roots = [t]) := by
  have htrees := (tidy_empty.graftAll (parse text url preserve).roots).2
  rw [ofTrees] at hd
  rw [hd] at htrees
  intro root hroot
  obtain ⟨t, hmem, htree⟩ : ∃ t ∈ (parse text url preserve).roots, d.tree? root = some t := by
    obtain ⟨i, hi, rfl⟩ := List.mem_iff_get.mp hroot
    exact ⟨_, List.get_mem _ _, htrees.get i.isLt (htrees.length_eq ▸ i.isLt)⟩
  have hrender : d.render root = t.render := by
    rw [Document.render, htree]
    rfl
  rw [hrender]
  exact ⟨t, htree, parse_render_of_fits url' (parse_fits clean t hmem)⟩

def pageText : String := "<p a=&#98;>&lt;<br/> </p><TITLE>&</title>"

def pageTrees : List Tree :=
  [.node ⟨.element "p", ⟨[("a", "b")]⟩, none⟩ [.leaf (.text "<"), .leaf (.element "br")],
    .node (.element "TITLE") [.leaf (.text "&")]]

theorem parse_pageText :
    (parse pageText "page.html" false).errors = [] ∧
      (parse pageText "page.html" false).roots = pageTrees := by
  constructor
  · cbv
  · cbv

theorem parse_render_pageText :
    (ofTrees pageTrees).2 = [0, 3] ∧ ∀ root ∈ [0, 3], ∃ t, (ofTrees pageTrees).1.tree? root = some t ∧
        (parse ((ofTrees pageTrees).1.render root) "root.html" false).errors = [] ∧
        (parse ((ofTrees pageTrees).1.render root) "root.html" false).roots = [t] := by
  obtain ⟨hclean, htrees⟩ := parse_pageText
  have hplain : ([0, 3].all fun root => ((((ofTrees pageTrees).1.tree? root).map Tree.labels).getD []).all
      fun l => decide l.NoReturn) = true := by
    decide +kernel
  have hd : ofTrees (parse pageText "page.html" false).roots = ((ofTrees pageTrees).1, [0, 3]) := by
    rw [htrees]
    rfl
  refine ⟨rfl, fun root hroot => ?_⟩
  obtain ⟨t, htree, hback⟩ := parse_render hclean hd "root.html" root hroot
  refine ⟨t, htree, hback fun l hl => ?_⟩
  have hall := List.all_eq_true.mp hplain root hroot
  rw [htree] at hall
  exact of_decide_eq_true (List.all_eq_true.mp hall l hl)

example : pageTrees.map Tree.render = ["<p a=\"b\">&lt;<br></p>", "<TITLE>&amp;</TITLE>"] := by
  decide +kernel

end Document

end LiveMarkup
