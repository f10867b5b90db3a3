import LiveMarkup.Proofs.Markup.AttributeNames
import LiveMarkup.Proofs.Markup.RoundTrip

namespace LiveMarkup

def unifyLines (s : String) : String := String.ofList (unifyLineEnds s.toList)

@[simp] theorem toList_unifyLines (s : String) : (unifyLines s).toList = unifyLineEnds s.toList :=
  String.toList_ofList

theorem unifyLineEnds_eq_nil {cs : List Char} : unifyLineEnds cs = [] ↔ cs = [] := by
  fun_cases unifyLineEnds cs <;> simp

theorem mem_unifyLineEnds {cs : List Char} {c : Char} (hc : c ≠ '\r') (h : c ∈ cs) :
    c ∈ unifyLineEnds cs := by
  fun_induction unifyLineEnds cs with
  | case1 => exact h
  | case2 rest ih =>
    rcases List.mem_cons.mp (List.mem_of_ne_of_mem hc h) with rfl | h
    · exact List.mem_cons_self
    · exact List.mem_cons_of_mem _ (ih h)
  | case3 rest hne ih => exact List.mem_cons_of_mem _ (ih (List.mem_of_ne_of_mem hc h))
  | case4 d rest hne hne' ih =>
    rcases List.mem_cons.mp h with rfl | h
    · exact List.mem_cons_self
    · exact List.mem_cons_of_mem _ (ih h)

theorem unifyLineEnds_return {rest : List Char} (h : rest.head? ≠ some '\n') :
    unifyLineEnds ('\r' :: rest) = '\n' :: unifyLineEnds rest := by
  rw [unifyLineEnds]
  rintro rest' rfl
  exact h rfl

/-- No line end goes over the seam of two texts if the second one does not start with a line feed. -/
theorem unifyLineEnds_append {cs rest : List Char} (h : rest.head? ≠ some '\n') :
    unifyLineEnds (cs ++ rest) = unifyLineEnds cs ++ unifyLineEnds rest := by
  fun_induction unifyLineEnds cs with
  | case1 => rfl
  | case2 more ih =>
    rw [List.cons_append, List.cons_append, unifyLineEnds, ih, List.cons_append]
  | case3 more hne ih =>
    have hhead : (more ++ rest).head? ≠ some '\n' := by
      cases more with
      | nil => exact h
      | cons c more => exact fun he => hne more (by rw [Option.some.inj he])
    rw [List.cons_append, unifyLineEnds_return hhead, ih, List.cons_append]
  | case4 c more hne hne' ih =>
    rw [List.cons_append, unifyLineEnds, ih, List.cons_append]
    · exact fun _ hc => absurd hc hne'
    · exact hne'

theorem unifyLineEnds_append_of_no_return {cs : List Char} (h : '\r' ∉ cs) (rest : List Char) :
    unifyLineEnds (cs ++ rest) = cs ++ unifyLineEnds rest := by
  induction cs with
  | nil => rfl
  | cons c cs ih =>
    rw [List.mem_cons, not_or] at h
    rw [List.cons_append, unifyLineEnds, ih h.2, List.cons_append]
    · exact fun _ hc => absurd hc.symm h.1
    · exact fun hc => absurd hc.symm h.1

/-- Line ends are unified in a text as they are where its characters are spelled one by one, if just line
ends are spelled as line ends. -/
theorem unifyLineEnds_flatMap {f : Char → List Char} (hreturn : f '\r' = ['\r'])
    (hfeed : f '\n' = ['\n']) (hno : ∀ c ≠ '\r', '\r' ∉ f c)
    (hhead : ∀ c ≠ '\n', ∃ d ds, f c = d :: ds ∧ d ≠ '\n') (cs : List Char) :
    unifyLineEnds (cs.flatMap f) = (unifyLineEnds cs).flatMap f := by
  fun_induction unifyLineEnds cs with
  | case1 => rfl
  | case2 rest ih =>
    rw [List.flatMap_cons, List.flatMap_cons, List.flatMap_cons, hreturn, hfeed, ← ih]
    exact unifyLineEnds.eq_2 _
  | case3 rest hne ih =>
    have hstart : (rest.flatMap f).head? ≠ some '\n' := by
      cases rest with
      | nil => simp
      | cons c rest =>
        obtain ⟨d, ds, hc, hd⟩ := hhead c fun he => hne rest (by rw [he])
        rw [List.flatMap_cons, hc]
        exact fun he => hd (Option.some.inj he)
    rw [List.flatMap_cons, List.flatMap_cons, hreturn, hfeed, ← ih]
    exact unifyLineEnds_return hstart
  | case4 c rest hne hne' ih =>
    rw [List.flatMap_cons, List.flatMap_cons, unifyLineEnds_append_of_no_return (hno c hne'), ih]

theorem escapeText_unifyLines (s : String) :
    escapeText (unifyLines s) = unifyLines (escapeText s) := by
  rw [← String.toList_inj, toList_unifyLines, escapeText, escapeText, String.toList_ofList,
    String.toList_ofList, toList_unifyLines]
  refine (unifyLineEnds_flatMap rfl rfl (fun c hc => ?_) (fun c hc => ?_) _).symm
  · unfold escapeTextChar
    split_ifs <;> first | decide | exact fun h => hc (List.mem_singleton.mp h).symm
  · unfold escapeTextChar
    split_ifs <;> first | exact ⟨_, _, rfl, by decide⟩ | exact ⟨c, [], rfl, hc⟩

theorem escapeAttribute_unifyLines (s : String) :
    escapeAttribute (unifyLines s) = unifyLines (escapeAttribute s) := by
  rw [← String.toList_inj, toList_unifyLines, escapeAttribute, escapeAttribute, String.toList_ofList,
    String.toList_ofList, toList_unifyLines]
  refine (unifyLineEnds_flatMap rfl rfl (fun c hc => ?_) (fun c hc => ?_) _).symm
  · unfold escapeAttributeChar
    split_ifs <;> first | decide | exact fun h => hc (List.mem_singleton.mp h).symm
  · unfold escapeAttributeChar
    split_ifs <;> first | exact ⟨_, _, rfl, by decide⟩ | exact ⟨c, [], rfl, hc⟩

theorem closesRaw_unifyLineEnds {name : String} (hname : '\n' ∉ name.toList) {cs : List Char}
    (h : closesRaw name (unifyLineEnds cs) = true) : closesRaw name cs = true := by
  have hprefix : (unifyLineEnds cs).take ('<' :: '/' :: name.toLower.toList).length <+: cs := by
    refine isPrefix_of_unifyLineEnds (List.take_prefix _ _) fun hmem => ?_
    unfold closesRaw at h
    have hlower : '\n' ∈ ((unifyLineEnds cs).take _).map Char.toLower := List.mem_map_of_mem hmem
    rw [beq_iff_eq.mp h, toList_toLower] at hlower
    rcases List.mem_cons.mp hlower with he | hlower
    · exact absurd he (by decide)
    · rcases List.mem_cons.mp hlower with he | hlower
      · exact absurd he (by decide)
      · obtain ⟨c, hc, he⟩ := List.mem_map.mp hlower
        exact hname (eq_of_toLower_eq he (by decide) ▸ hc)
  obtain ⟨more, hmore⟩ := hprefix
  rw [← hmore]
  refine closesRaw_append ?_ more
  unfold closesRaw at h ⊢
  dsimp only at h ⊢
  rwa [List.take_take, Nat.min_self]

/-- The same content with unified line ends in a text. -/
def Content.unified : Content → Content
  | .text value => .text (unifyLines value)
  | content => content

def Label.unified (l : Label) : Label := ⟨l.content.unified, l.attributes.map unifyLines, l.control⟩

theorem Label.unified_element (name : String) (attributes : Table String) (control : Option String) :
    unified ⟨.element name, attributes, control⟩ =
      ⟨.element name, attributes.map unifyLines, control⟩ := rfl

theorem Label.unified_text (value : String) : unified (.text value) = .text (unifyLines value) := rfl

theorem AreAttributes.map {attributes : Table String} (h : AreAttributes attributes)
    (f : String → String) : AreAttributes (attributes.map f) :=
  ⟨by rw [Table.names_map]; exact h.nodup, by rw [Table.names_map]; exact h.named⟩

theorem Label.noReturn_unified (l : Label) : l.unified.NoReturn := by
  refine ⟨fun value he => ?_, fun a ha => ?_⟩
  · obtain ⟨content, attributes, control⟩ := l
    cases content with
    | text v =>
      obtain rfl := Content.text.inj he
      rw [toList_unifyLines]
      exact return_not_mem_unifyLineEnds _
    | element | comment => cases he
  · obtain ⟨b, -, rfl⟩ := List.mem_map.mp ha
    rw [toList_unifyLines]
    exact return_not_mem_unifyLineEnds _

theorem IsVerbatim.unified {name value : String} (h : IsVerbatim name value)
    (hname : '\n' ∉ name.toList) : IsVerbatim name (unifyLines value) := by
  refine ⟨fun he => h.nonempty ?_, fun hraw s hs => ?_⟩
  · rw [← String.toList_eq_nil_iff, toList_unifyLines, unifyLineEnds_eq_nil] at he
    exact String.toList_eq_nil_iff.mp he
  · rw [toList_unifyLines] at hs
    obtain ⟨more, hmore, rfl⟩ := exists_of_suffix_unifyLineEnds hs
    rw [← Bool.not_eq_true]
    intro hcloses
    have hopen := h.unclosed hraw more hmore
    rw [closesRaw_unifyLineEnds hname hcloses] at hopen
    cases hopen

namespace Tree

mutual

def unified : Tree → Tree
  | .node l ts => .node l.unified (unifiedAll ts)

def unifiedAll : List Tree → List Tree
  | [] => []
  | t :: ts => unified t :: unifiedAll ts

end

theorem unifiedAll_eq (ts : List Tree) : unifiedAll ts = ts.map unified := by
  induction ts with
  | nil => rfl
  | cons t ts ih => rw [unifiedAll, ih, List.map_cons]

theorem unified_node (l : Label) (ts : List Tree) :
    unified (.node l ts) = .node l.unified (ts.map unified) := by
  rw [unified, unifiedAll_eq]

theorem unified_leaf (l : Label) : unified (.leaf l) = .leaf l.unified := by
  rw [leaf, unified_node, List.map_nil, leaf]

theorem isText_unified (t : Tree) : t.unified.isText = t.isText := by
  obtain ⟨⟨content, _, _⟩, ts⟩ := t
  cases content <;> rfl

variable {preserve : Bool} {parent : Option String}

mutual

theorem labels_unified : ∀ t : Tree, t.unified.labels = t.labels.map Label.unified
  | .node l ts => by
    rw [unified_node, labels_node, labels_node, List.map_cons, List.flatMap_map, labels_unifiedAll ts]

theorem labels_unifiedAll : ∀ ts : List Tree,
    (ts.flatMap fun t => t.unified.labels) = (ts.flatMap labels).map Label.unified
  | [] => rfl
  | t :: ts => by
    rw [List.flatMap_cons, List.flatMap_cons, List.map_append, labels_unified t,
      labels_unifiedAll ts]

end

theorem noReturn_of_mem_labels_unified (t : Tree) : ∀ l ∈ t.unified.labels, l.NoReturn := by
  rw [labels_unified]
  intro l hl
  obtain ⟨k, -, rfl⟩ := List.mem_map.mp hl
  exact k.noReturn_unified

theorem Fits.unified {t : Tree} (h : t.Fits preserve parent) : t.unified.Fits preserve parent := by
  induction h with
  | @text parent value nonempty kept =>
    rw [unified_leaf]
    refine .text (fun he => nonempty ?_) (kept.imp_right (Or.imp_right fun ⟨c, hc, hspace⟩ => ?_))
    · rw [← String.toList_eq_nil_iff, toList_unifyLines, unifyLineEnds_eq_nil] at he
      exact String.toList_eq_nil_iff.mp he
    · rw [toList_unifyLines]
      exact ⟨c, mem_unifyLineEnds (fun he => by rw [he] at hspace; cases hspace) hc, hspace⟩
  | comment valid =>
    rw [unified_leaf]
    exact .comment valid
  | void named written void =>
    rw [unified_leaf]
    exact .void named (written.map _) void
  | @verbatim parent name attributes value? named written content inside =>
    have hname : '\n' ∉ name.toList := fun hmem => absurd (named.inside _ hmem) (by decide)
    have hchildren : (value?.toList.map fun value => leaf (.text value)).map Tree.unified =
        (value?.map unifyLines).toList.map fun value => leaf (.text value) := by
      cases value? <;> rfl
    rw [unified_node, hchildren]
    refine .verbatim named (written.map _) content fun value hvalue => ?_
    obtain ⟨v, hv, rfl⟩ := Option.map_eq_some_iff.mp hvalue
    exact (inside v hv).unified hname
  | markup named written closed content inside apart ih =>
    rw [unified_node]
    refine .markup named (written.map _) closed content (fun u hu => ?_) ?_
    · obtain ⟨t, ht, rfl⟩ := List.mem_map.mp hu
      exact ih t ht
    · rw [List.isChain_map]
      refine apart.imp fun t u htu => ?_
      rw [Apart, isText_unified, isText_unified]
      exact htu

end Tree

/-! ### Markup of trees -/

theorem Tree.writtenText_unifyLines (raw : Bool) (s : String) :
    writtenText raw (unifyLines s) = unifyLines (writtenText raw s) := by
  cases raw
  · exact escapeText_unifyLines s
  · rfl

theorem unifyLineEnds_writtenAttribute {a : String × String} (h : '\r' ∉ a.1.toList)
    (rest : List Char) : unifyLineEnds (writtenAttribute a ++ rest) =
      writtenAttribute (a.1, unifyLines a.2) ++ unifyLineEnds rest := by
  have hopen : '\r' ∉ ' ' :: (a.1.toList ++ ['=', '"']) := by simp [h]
  have hsplit : ∀ value : String, writtenAttribute (a.1, value) =
      ' ' :: (a.1.toList ++ ['=', '"']) ++ ((escapeAttribute value).toList ++ ['"']) := by
    intro value
    simp [writtenAttribute]
  have ha : writtenAttribute a = writtenAttribute (a.1, a.2) := rfl
  rw [ha, hsplit, hsplit, List.append_assoc, unifyLineEnds_append_of_no_return hopen,
    List.append_assoc, unifyLineEnds_append (by simp), unifyLineEnds_append_of_no_return (by simp),
    escapeAttribute_unifyLines, toList_unifyLines, List.append_assoc, List.append_assoc]

theorem unifyLineEnds_renderStartTag {name : String} {attributes : Table String}
    (named : IsTagName name) (written : AreAttributes attributes) (rest : List Char) :
    unifyLineEnds ((renderStartTag name attributes).toList ++ rest) =
      (renderStartTag name (attributes.map unifyLines)).toList ++ unifyLineEnds rest := by
  have hentries : ∀ (entries : List (String × String)) (rest : List Char),
      (∀ a ∈ entries, '\r' ∉ a.1.toList) →
      unifyLineEnds (entries.flatMap writtenAttribute ++ rest) =
        (entries.map fun a => (a.1, unifyLines a.2)).flatMap writtenAttribute ++
          unifyLineEnds rest := by
    intro entries rest
    induction entries with
    | nil => exact fun _ => rfl
    | cons a entries ih =>
      intro h
      rw [List.forall_mem_cons] at h
      rw [List.flatMap_cons, List.append_assoc, unifyLineEnds_writtenAttribute h.1, ih h.2,
        List.map_cons, List.flatMap_cons, List.append_assoc]
  have hopen : '\r' ∉ '<' :: name.toList := by
    simp [return_not_mem_of_inside named.inside]
  have hnames : ∀ a ∈ attributes.entries, '\r' ∉ a.1.toList := fun a ha =>
    return_not_mem_of_inside (written.named _ (List.mem_map_of_mem ha)).inside
  have hsplit : ∀ attributes : Table String, (renderStartTag name attributes).toList =
      ('<' :: name.toList) ++ (attributes.entries.flatMap writtenAttribute ++ ['>']) := by
    intro attributes
    rw [toList_renderStartTag, List.cons_append]
  rw [hsplit, hsplit, List.append_assoc, unifyLineEnds_append_of_no_return hopen, List.append_assoc,
    hentries _ _ hnames, unifyLineEnds_append_of_no_return (by simp), Table.map, List.append_assoc,
    List.append_assoc]

theorem head?_ne_of_opensMarkup {cs : List Char} (h : opensMarkup cs = true) :
    cs.head? ≠ some '\n' := by
  obtain ⟨c, rest, rfl, -⟩ := exists_of_opensMarkup h
  simp

theorem head?_renderEndTag (name : String) (rest : List Char) :
    ((renderEndTag name).toList ++ rest).head? ≠ some '\n' := by
  rw [toList_renderEndTag]
  simp

namespace Tree

variable {preserve : Bool} {parent : Option String}

/-- Line ends are unified in the tree as they are in its markup, if no line feed follows a text. -/
def UnifiesAlone (t : Tree) : Prop :=
  ∀ cs : List Char, (t.isText = true → cs.head? ≠ some '\n') →
    unifyLineEnds (t.render.toList ++ cs) = t.unified.render.toList ++ unifyLineEnds cs

theorem unifyLineEnds_renderAll {ts : List Tree} (fits : ∀ t ∈ ts, t.Fits preserve parent)
    (alone : ∀ t ∈ ts, t.UnifiesAlone) (apart : ts.IsChain Apart) {cs : List Char}
    (hcs : cs.head? ≠ some '\n') :
    unifyLineEnds ((renderAll false ts).toList ++ cs) =
      (renderAll false (ts.map unified)).toList ++ unifyLineEnds cs := by
  induction ts with
  | nil => simp [renderAll]
  | cons t ts ih =>
    obtain ⟨-, hfits⟩ := List.forall_mem_cons.mp fits
    obtain ⟨halone, halones⟩ := List.forall_mem_cons.mp alone
    obtain ⟨hnext, hchain⟩ := List.isChain_cons.mp apart
    have hstop : t.isText = true → ((renderAll false ts).toList ++ cs).head? ≠ some '\n' := by
      intro ht
      cases ts with
      | nil => simpa [renderAll] using hcs
      | cons u us =>
        have hu : u.isText = false := (hnext u rfl).resolve_left (by simp [ht])
        rw [renderAll, String.toList_append, List.append_assoc]
        exact head?_ne_of_opensMarkup ((hfits u List.mem_cons_self).opensMarkup_render hu _)
    rw [renderAll, String.toList_append, List.append_assoc, List.map_cons, renderAll,
      String.toList_append, List.append_assoc, ← ih hfits halones hchain]
    exact halone _ hstop

theorem unifyLineEnds_renderText? (raw : Bool) (value? : Option String) {cs : List Char}
    (hcs : cs.head? ≠ some '\n') :
    unifyLineEnds ((renderAll raw (value?.toList.map fun value => leaf (.text value))).toList ++ cs) =
      (renderAll raw ((value?.toList.map fun value => leaf (.text value)).map Tree.unified)).toList ++
        unifyLineEnds cs := by
  cases value? with
  | none => rfl
  | some value =>
    have hone : ∀ value : String, renderAll raw [leaf (.text value)] = writtenText raw value :=
      fun value => renderAll_singleton raw _
    have hunified : [leaf (.text value)].map Tree.unified = [leaf (.text (unifyLines value))] := rfl
    rw [Option.toList_some, List.map_singleton, hunified, hone, hone, unifyLineEnds_append hcs,
      writtenText_unifyLines, toList_unifyLines]

theorem Fits.unifiesAlone {t : Tree} (h : t.Fits preserve parent) : t.UnifiesAlone := by
  induction h with
  | @text parent value nonempty kept =>
    intro cs hcs
    have hrender : ∀ value : String, render (leaf (.text value)) = escapeText value := fun _ => rfl
    rw [unified_leaf, Label.unified_text, hrender, hrender, unifyLineEnds_append (hcs rfl),
      escapeText_unifyLines, toList_unifyLines]
  | @comment parent value valid =>
    intro cs _
    have hrender : render (leaf (.comment value)) = "<!--" ++ value ++ "-->" := rfl
    have hunified : (leaf (.comment value)).unified = leaf (.comment value) := unified_leaf _
    rw [hunified, hrender]
    exact unifyLineEnds_append_of_no_return (by simp [valid.noReturn]) cs
  | @void parent name attributes named written void =>
    intro cs _
    rw [unified_leaf, Label.unified_element, leaf, leaf, render, render, renderIn, renderIn,
      if_pos void, if_pos void]
    exact unifyLineEnds_renderStartTag named written cs
  | @verbatim parent name attributes value? named written content inside =>
    intro cs _
    rw [unified_node, Label.unified_element, render_element _ _ _ _ (isVoid_of_tagContent content),
      render_element _ _ _ _ (isVoid_of_tagContent content)]
    simp only [String.toList_append, List.append_assoc]
    rw [unifyLineEnds_renderStartTag named written,
      unifyLineEnds_renderText? _ value? (head?_renderEndTag name cs),
      unifyLineEnds_append_of_no_return (return_not_mem_renderEndTag named)]
  | @markup parent name attributes children named written closed content inside apart ih =>
    intro cs _
    have hraw : (tagContent name == .rawText) = false := by simp [content]
    rw [unified_node, Label.unified_element, render_element _ _ _ _ closed,
      render_element _ _ _ _ closed, hraw]
    simp only [String.toList_append, List.append_assoc]
    rw [unifyLineEnds_renderStartTag named written,
      unifyLineEnds_renderAll inside ih apart (head?_renderEndTag name cs),
      unifyLineEnds_append_of_no_return (return_not_mem_renderEndTag named)]

end Tree

/-- A text is parsed as any other one with the same unified line ends. -/
theorem parse_congr {a b : String} (h : unifyLineEnds a.toList = unifyLineEnds b.toList) (url : String)
    (preserve : Bool) : parse a url preserve = parse b url preserve := by
  rw [parse, parse, lex, lex, h]

/-- The markup of a tree that fits is read as this tree with unified line ends. -/
theorem parse_render_unified {t : Tree} {preserve : Bool} (url : String) (h : t.Fits preserve none) :
    (parse t.render url preserve).errors = [] ∧
      (parse t.render url preserve).roots = [t.unified] := by
  have hrender := h.unifiesAlone [] (by simp)
  rw [List.append_nil, unifyLineEnds, List.append_nil] at hrender
  have hback := parse_render_of_fits url h.unified t.noReturn_of_mem_labels_unified
  rwa [parse_congr (b := t.render) _ url preserve] at hback
  rw [← hrender, unifyLineEnds_of_no_return (return_not_mem_unifyLineEnds _)]

end LiveMarkup
