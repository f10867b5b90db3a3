import LiveMarkup.Proofs.Markup.Building

namespace LiveMarkup

theorem Cursor.rest_skipSpace (k : Cursor) :
    k.skipSpace.rest = k.rest.dropWhile isMarkupSpace :=
  rest_skip List.takeWhile_append_dropWhile.symm rfl

theorem Cursor.rest_skipSpace_of_not {k : Cursor} {c : Char} {rest : List Char}
    (hk : k.rest = c :: rest) (hc : isMarkupSpace c = false) : k.skipSpace.rest = c :: rest := by
  rw [rest_skipSpace, hk, List.dropWhile_cons_of_neg (by simp [hc])]

theorem nameRun_of_inside {k : Cursor} {name rest : List Char} {c : Char}
    (hk : k.rest = name ++ c :: rest) (hname : ∀ d ∈ name, endsName d = false)
    (hc : endsName c = true) : nameRun k = name := by
  rw [nameRun, hk, List.takeWhile_append_of_pos (by simpa using hname),
    List.takeWhile_cons_of_neg (by simpa using hc), List.append_nil]

def writtenAttribute (a : String × String) : List Char :=
  ' ' :: (a.1.toList ++ '=' :: '"' :: ((escapeAttribute a.2).toList ++ ['"']))

theorem toList_renderAttribute (a : String × String) :
    (renderAttribute a).toList = writtenAttribute a := by
  simp [renderAttribute, writtenAttribute]

theorem lexValue_written {k : Cursor} {value : String} {rest : List Char}
    (hk : k.rest = '"' :: ((escapeAttribute value).toList ++ '"' :: rest)) :
    ∃ span next, lexValue k = ⟨[⟨.attributeValue value, span⟩], [], next⟩ ∧ next.rest = rest := by
  have hbody : ((escapeAttribute value).toList ++ '"' :: rest).takeWhile (· != '"') =
      (escapeAttribute value).toList := by
    rw [List.takeWhile_append_of_pos, List.takeWhile_cons_of_neg (by simp), List.append_nil]
    intro c hc
    rw [bne_iff_ne]
    rintro rfl
    exact quote_not_mem_escapeAttribute value hc
  have hstop : (k.skip (1 + (escapeAttribute value).toList.length)).rest = ['"'] ++ rest :=
    @Cursor.rest_skip k ('"' :: (escapeAttribute value).toList) _ _ hk (by simp [Nat.add_comm])
  have hquoted : lexValue k =
      lexValue.quoted k '"' ((escapeAttribute value).toList ++ '"' :: rest) := by
    unfold lexValue
    rw [hk]
    rfl
  refine ⟨k.spanTo ((k.skip (1 + (escapeAttribute value).toList.length)).skip 1),
    (k.skip (1 + (escapeAttribute value).toList.length)).skip 1, ?_, Cursor.rest_skip hstop rfl⟩
  rw [hquoted, lexValue.quoted, hbody]
  dsimp only
  rw [if_neg (by simp [Cursor.atEnd, hstop]), attributeValue, decode_escapeAttribute]

theorem lexAttribute_written {k : Cursor} {name value : String} {rest : List Char}
    (hname : IsAttributeName name)
    (hk : k.rest = name.toList ++ '=' :: '"' :: ((escapeAttribute value).toList ++ '"' :: rest)) :
    ∃ tokens next, lexAttribute k = ⟨tokens, [], next⟩ ∧ AttributeRun tokens [(name, value)] ∧
      next.rest = rest := by
  have hrun : nameRun k = name.toList := nameRun_of_inside hk hname.inside rfl
  have hequals : (k.skip name.toList.length).skipSpace.rest =
      ['='] ++ '"' :: ((escapeAttribute value).toList ++ '"' :: rest) :=
    Cursor.rest_skipSpace_of_not (Cursor.rest_skip hk rfl) rfl
  have hquote : (((k.skip name.toList.length).skipSpace.skip 1).skipSpace).rest =
      '"' :: ((escapeAttribute value).toList ++ '"' :: rest) :=
    Cursor.rest_skipSpace_of_not (Cursor.rest_skip hequals rfl) rfl
  obtain ⟨span, next, hvalue, hnext⟩ := lexValue_written hquote
  refine ⟨[⟨.attributeName name, k.spanTo (k.skip name.toList.length)⟩,
    ⟨.attributeValue value, span⟩], next, ?_, .valued hname .nil, hnext⟩
  rw [lexAttribute, hrun, String.ofList_toList]
  dsimp only
  rw [if_pos (by simp [Cursor.startsWith, hequals]), hvalue]
  rfl

theorem lexAttributes_written {entries : List (String × String)} {rest : List Char} {k : Cursor}
    (h : ∀ a ∈ entries, IsAttributeName a.1)
    (hk : k.rest = entries.flatMap writtenAttribute ++ '>' :: rest) :
    ∃ tokens next, lexAttributes k = ⟨tokens, [], next⟩ ∧ AttributeRun tokens entries ∧
      next.rest = '>' :: rest := by
  induction entries generalizing k with
  | nil =>
    have hend := Cursor.rest_skipSpace_of_not hk rfl
    refine ⟨[], k.skipSpace, ?_, .nil, hend⟩
    rw [lexAttributes_cons hend]
    rfl
  | cons a entries ih =>
    obtain ⟨hname, hothers⟩ := List.forall_mem_cons.mp h
    obtain ⟨c, cs, hcs⟩ := List.exists_cons_of_ne_nil hname.nonempty
    have hc : endsName c = false := hname.inside c (by simp [hcs])
    have hspace : k.skipSpace.rest = a.1.toList ++ '=' :: '"' :: ((escapeAttribute a.2).toList ++
        '"' :: (entries.flatMap writtenAttribute ++ '>' :: rest)) := by
      rw [Cursor.rest_skipSpace, hk, List.flatMap_cons, writtenAttribute, List.cons_append,
        List.cons_append, List.dropWhile_cons_of_pos rfl, hcs, List.cons_append, List.cons_append,
        List.cons_append, List.dropWhile_cons_of_neg (by simp [not_isMarkupSpace_of_not_endsName hc])]
      simp
    obtain ⟨tokens, next, hattribute, hrun, hnext⟩ := lexAttribute_written hname hspace
    obtain ⟨tokens', next', hattributes, hrun', hnext'⟩ := ih hothers hnext
    refine ⟨tokens ++ tokens', next', ?_, hrun.append hrun', hnext'⟩
    rw [hcs] at hspace
    rw [lexAttributes_cons hspace, if_neg ?_, if_neg (by simp [hc]), hattribute, hattributes]
    · rfl
    · rw [Bool.or_eq_true, Bool.and_eq_true, decide_eq_true_eq, decide_eq_true_eq]
      rintro (rfl | ⟨rfl, -⟩)
      · exact absurd hc (by decide)
      · exact absurd hc (by decide)

theorem lexItem_of_isAlpha {k : Cursor} {c : Char} {rest : List Char} (hk : k.rest = '<' :: c :: rest)
    (hc : c.isAlpha = true) : lexItem k = lexStartTag k := by
  rw [lexItem, hk, if_pos (by simp [opensMarkup, hc]), lexMarkup, hk]
  split
  · rename_i heq
    rw [(List.cons.inj (List.cons.inj heq).2).1] at hc
    exact absurd hc (by decide)
  · rename_i heq
    rw [(List.cons.inj (List.cons.inj heq).2).1] at hc
    exact absurd hc (by decide)
  · rfl

theorem toList_renderStartTag (name : String) (attributes : Table String) :
    (renderStartTag name attributes).toList =
      '<' :: (name.toList ++ (attributes.entries.flatMap writtenAttribute ++ ['>'])) := by
  simp [renderStartTag, String.toList_join, List.flatMap_map, toList_renderAttribute]

theorem lexTagName_written {k : Cursor} {name : String} {rest : List Char} {c : Char}
    (hname : IsTagName name) (hk : k.rest = '<' :: (name.toList ++ c :: rest))
    (hc : endsName c = true) :
    nameRun (k.skip 1) = name.toList ∧ (lexTagName k).errors = [] ∧
      (lexTagName k).next.rest = c :: rest := by
  have hrest : (k.skip 1).rest = name.toList ++ c :: rest := @Cursor.rest_skip k ['<'] _ _ hk rfl
  have hrun : nameRun (k.skip 1) = name.toList := nameRun_of_inside hrest hname.inside hc
  refine ⟨hrun, ?_, ?_⟩
  · rw [lexTagName, hrun]
    exact if_pos (List.all_eq_true.mpr hname.valid)
  · rw [lexTagName, hrun]
    exact @Cursor.rest_skip k ('<' :: name.toList) _ _ hk (by simp [Nat.add_comm])

/-- A start tag is read with the content that directly follows it. -/
theorem lexItem_startTag {k : Cursor} {name : String} {attributes : Table String}
    {rest rest' : List Char} {items : List Item} (named : IsTagName name)
    (written : AreAttributes attributes)
    (hk : k.rest = (renderStartTag name attributes).toList ++ rest)
    (hcontent : ∀ k' : Cursor, k'.rest = rest →
      (lexContent name k').Gives items ∧ (lexContent name k').next.rest = rest') :
    ∃ span, (lexItem k).Gives (.opening name attributes false span :: items) ∧
      (lexItem k).next.rest = rest' := by
  obtain ⟨c, cs, hhead, halpha⟩ := named.head
  rw [toList_renderStartTag, List.cons_append, List.append_assoc, List.append_assoc] at hk
  have hitem : lexItem k = lexStartTag k := by
    rw [hhead] at hk
    exact lexItem_of_isAlpha hk halpha
  obtain ⟨d, ds, hds, hd⟩ : ∃ d ds, attributes.entries.flatMap writtenAttribute ++
      (['>'] ++ rest) = d :: ds ∧ endsName d = true := by
    cases attributes.entries with
    | nil => exact ⟨'>', rest, rfl, rfl⟩
    | cons a entries => exact ⟨' ', _, rfl, rfl⟩
  rw [hds] at hk
  obtain ⟨hrun, htag, hnext⟩ := lexTagName_written named hk hd
  have hentries : ∀ a ∈ attributes.entries, IsAttributeName a.1 := fun a ha =>
    written.named _ (List.mem_map_of_mem ha)
  obtain ⟨tokens, next, hinside, hattributes, hend⟩ :=
    lexAttributes_written hentries (hnext.trans hds.symm)
  obtain ⟨hgives, hlast⟩ := hcontent (next.skip 1) (@Cursor.rest_skip next ['>'] _ _ hend rfl)
  have htagEnd : lexTagEnd k name next = LexStep.andThen
      ⟨[⟨.startTagEnd, next.spanTo (next.skip 1)⟩], [], next.skip 1⟩ (lexContent name (next.skip 1)) := by
    rw [lexTagEnd, Cursor.startsWith, Cursor.startsWith, hend]
    rfl
  have hitems := @startTag_gives k ⟨tokens, [], next⟩ _ _ (next.spanTo (next.skip 1)) _ false
    (next.skip 1) htag rfl hattributes hgives
  rw [hrun, String.ofList_toList, Table.ofEntries_entries written.nodup] at hitems
  rw [hitem, lexStartTag, hrun, String.ofList_toList, hinside]
  dsimp only
  rw [htagEnd]
  exact ⟨_, hitems, hlast⟩

theorem lexItem_endTag {k : Cursor} {name : String} {rest : List Char} (named : IsTagName name)
    (hk : k.rest = (renderEndTag name).toList ++ rest) :
    ∃ span, (lexItem k).tokens = [⟨.endTag name, span⟩] ∧ (lexItem k).errors = [] ∧
      (lexItem k).next.rest = rest := by
  obtain ⟨c, cs, hhead, halpha⟩ := named.head
  have hk' : k.rest = ['<', '/'] ++ (name.toList ++ '>' :: rest) := by
    rw [hk, renderEndTag]
    simp
  have hspace : isMarkupSpace c = false :=
    not_isMarkupSpace_of_not_endsName (named.inside c (by simp [hhead]))
  have hstart : (k.skip 2).skipSpace.rest = name.toList ++ '>' :: rest := by
    have hskip := Cursor.rest_skip hk' rfl
    rw [hhead, List.cons_append] at hskip ⊢
    exact Cursor.rest_skipSpace_of_not hskip hspace
  have hrun : nameRun (k.skip 2).skipSpace = name.toList := nameRun_of_inside hstart named.inside rfl
  have hstop : ((k.skip 2).skipSpace.skip name.toList.length).skipSpace.rest = ['>'] ++ rest :=
    Cursor.rest_skipSpace_of_not (Cursor.rest_skip hstart rfl) rfl
  rw [lexItem_of_slash hk', lexEndTag, hrun, String.ofList_toList]
  dsimp only
  rw [if_pos (by simp [Cursor.startsWith, hstop])]
  exact ⟨_, rfl, rfl, Cursor.rest_skip hstop rfl⟩

/-! ### Texts and comments -/

theorem not_opensMarkup {c : Char} (h : c ≠ '<') (cs : List Char) :
    opensMarkup (c :: cs) = false := by
  unfold opensMarkup
  split
  · rename_i heq
    exact absurd (List.cons.inj heq).1 h
  · rfl

theorem lexItem_text {k : Cursor} {value : String} {rest : List Char} (hvalue : value ≠ "")
    (hk : k.rest = (escapeText value).toList ++ rest) (last : rest = [] ∨ opensMarkup rest = true) :
    (lexItem k).Gives [.text value] ∧ (lexItem k).next.rest = rest := by
  have hlt := lt_not_mem_escapeText value
  have hrun : runUntil opensMarkup k.rest = (escapeText value).toList := by
    rw [hk]
    exact runUntil_of_lt_not_mem (fun c cs h => not_opensMarkup h cs) hlt last
  have hitem : lexItem k = lexText k := by
    obtain ⟨c, cs, hcs⟩ := List.exists_cons_of_ne_nil (escapeText_nonempty hvalue)
    have hc : c ≠ '<' := fun he => hlt (by simp [hcs, he])
    rw [lexItem, hk, hcs, List.cons_append, not_opensMarkup hc]
    rfl
  rw [hitem, lexText, hrun, decode_escapeText]
  exact ⟨⟨rfl, fun _ => rfl⟩, Cursor.rest_skip hk rfl⟩

/-- The end of a comment is not found before the place where it is written. -/
theorem runUntil_comment {value rest : List Char} (h : ¬ "-->".toList <:+: value) :
    runUntil "-->".toList.isPrefixOf (value ++ ("-->".toList ++ rest)) = value := by
  refine runUntil_append (fun s hs hsuffix => ?_) (.inr ?_)
  · rw [← Bool.not_eq_true, List.isPrefixOf_iff_prefix]
    intro hprefix
    match s, hs with
    -- The end would have to have its `>` where there is a hyphen.
    | [c], _ => simp at hprefix
    | [c, d], _ => simp at hprefix
    | c :: d :: e :: s, _ =>
      have hhead : "-->".toList <+: c :: d :: e :: s := by
        rw [List.cons_append, List.cons_append, List.cons_append] at hprefix
        simp only [String.reduceToList, List.cons_prefix_cons, List.nil_prefix, and_true] at hprefix ⊢
        exact hprefix
      exact h (hhead.isInfix.trans hsuffix.isInfix)
  · exact List.isPrefixOf_iff_prefix.mpr (List.prefix_append _ _)

theorem lexItem_comment {k : Cursor} {value : String} {rest : List Char} (valid : IsComment value)
    (hk : k.rest = ("<!--" ++ value ++ "-->").toList ++ rest) :
    (lexItem k).Gives [.comment value] ∧ (lexItem k).next.rest = rest := by
  have hk' : k.rest = "<!--".toList ++ (value.toList ++ ("-->".toList ++ rest)) := by
    rw [hk]
    simp
  have hitem : lexItem k =
      lexDelimited 4 "-->".toList .comment "Unterminated comment" k := by
    unfold lexItem lexMarkup
    rw [hk']
    rfl
  have hbody : runUntil "-->".toList.isPrefixOf (k.rest.drop 4) = value.toList := by
    rw [hk']
    exact runUntil_comment valid.unclosed
  have hstop : (k.skip (4 + value.toList.length)).rest = "-->".toList ++ rest := by
    refine @Cursor.rest_skip k ("<!--".toList ++ value.toList) _ _ ?_ ?_
    · rw [hk', List.append_assoc]
    · rw [List.length_append]
      rfl
  rw [hitem, lexDelimited, hbody, String.ofList_toList]
  dsimp only
  rw [if_neg (by simp [Cursor.atEnd, hstop])]
  exact ⟨⟨rfl, fun _ => rfl⟩, Cursor.rest_skip hstop rfl⟩

/-! ### The text of a raw element -/

theorem lexRawText_nothing {name : String} {decode : List Char → List Char} {k : Cursor}
    (hk : closesRaw name k.rest = true) :
    lexRawText name decode k = ⟨[], [], k.skip 0⟩ := by
  have hrun : runUntil (closesRaw name) k.rest = [] :=
    @runUntil_append _ [] _ (fun s hs hsuffix => absurd (List.suffix_nil.mp hsuffix) hs) (.inr hk)
  rw [lexRawText, hrun]
  rfl

theorem lexRawText_written {name : String} {k : Cursor} {run rest : List Char}
    (decode : List Char → List Char) (hne : run ≠ []) (hk : k.rest = run ++ rest)
    (hrun : runUntil (closesRaw name) (run ++ rest) = run) :
    (lexRawText name decode k).Gives [.text (String.ofList (decode run))] ∧
      (lexRawText name decode k).next.rest = rest := by
  rw [lexRawText, hk, hrun, if_neg (by simpa using hne)]
  exact ⟨⟨rfl, fun _ => rfl⟩, Cursor.rest_skip hk rfl⟩

theorem toList_renderEndTag (name : String) (rest : List Char) :
    (renderEndTag name).toList ++ rest = '<' :: '/' :: (name.toList ++ '>' :: rest) := by
  simp [renderEndTag]

theorem runUntil_closesRaw {name : String} {content : List Char} (named : IsTagName name)
    (h : ∀ s, s <:+ content → closesRaw name s = false) (rest : List Char) :
    runUntil (closesRaw name) (content ++ ((renderEndTag name).toList ++ rest)) = content := by
  have hlt : '<' ∉ name.toList := fun hmem => absurd (named.inside _ hmem) (by decide)
  rw [toList_renderEndTag]
  exact runUntil_append (fun s hne hs => not_closesRaw_append hlt (h s hs) hne)
    (.inr (closesRaw_endTag name _))

/-- The text of a raw element is read up to the end tag that is written behind it. -/
theorem lexContent_written {k : Cursor} {name value : String} {rest : List Char}
    (named : IsTagName name) (content : tagContent name ≠ .markup) (valid : IsVerbatim name value)
    (hk : k.rest = (if tagContent name == .rawText then value else escapeText value).toList ++
      ((renderEndTag name).toList ++ rest)) :
    (lexContent name k).Gives [.text value] ∧
      (lexContent name k).next.rest = (renderEndTag name).toList ++ rest := by
  have hcloses : closesRaw name ((renderEndTag name).toList ++ rest) = true := by
    rw [toList_renderEndTag]
    exact closesRaw_endTag name _
  unfold lexContent
  split
  · rename_i hraw
    rw [hraw] at hk
    have hread := lexRawText_written id
      (fun he => valid.nonempty (String.toList_eq_nil_iff.mp he)) hk
      (runUntil_closesRaw named (valid.unclosed hraw) rest)
    rwa [id, String.ofList_toList] at hread
  · rename_i hescapable
    rw [hescapable] at hk
    have hrun : runUntil (closesRaw name)
        ((escapeText value).toList ++ ((renderEndTag name).toList ++ rest)) =
        (escapeText value).toList := by
      refine runUntil_of_lt_not_mem (fun c cs hc => ?_) (lt_not_mem_escapeText value) (.inr hcloses)
      rw [← Bool.not_eq_true]
      intro h
      obtain ⟨rest, he⟩ := exists_of_closesRaw h
      exact hc (List.cons.inj he).1
    have hread := lexRawText_written Reference.decode (escapeText_nonempty valid.nonempty)
      hk hrun
    rwa [decode_escapeText] at hread
  · exact absurd ‹_› content

theorem lexContent_nothing {k : Cursor} {name : String} {rest : List Char}
    (content : tagContent name ≠ .markup) (hk : k.rest = (renderEndTag name).toList ++ rest) :
    (lexContent name k).Gives [] ∧
      (lexContent name k).next.rest = (renderEndTag name).toList ++ rest := by
  have hcloses : closesRaw name k.rest = true := by
    rw [hk, toList_renderEndTag]
    exact closesRaw_endTag name _
  unfold lexContent
  split
  · rw [lexRawText_nothing hcloses]
    exact ⟨.nil _, hk⟩
  · rw [lexRawText_nothing hcloses]
    exact ⟨.nil _, hk⟩
  · exact absurd ‹_› content

end LiveMarkup
