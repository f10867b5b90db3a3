import LiveMarkup.Proofs.Markup.Coverage
import LiveMarkup.Proofs.Markup.Respelling
import LiveMarkup.Proofs.Markup.RoundTrip

/-!
# Raw elements

The content of a raw element is one text up to the first `</` with the name of the element. What follows
the name there does not matter, so the text of an element may end at a tag of another one.
-/

namespace LiveMarkup

/-! ### References at the end of a text -/

namespace Reference

/-- No reference goes over a character that references do not have. -/
theorem decode_append_cons {d : Char} (hbody : isBodyChar d = false) (hsign : d ≠ '&' ∧ d ≠ ';')
    (cs rest : List Char) : decode (cs ++ d :: rest) = decode cs ++ d :: decode rest := by
  induction cs using decode_induction with
  | nil => rw [List.nil_append, decode_cons_of_ne hsign.1, decode_nil, List.nil_append]
  | reference cs c after hr ih =>
    have hdecode := decode_of_read? hr
    obtain ⟨body, rfl, hread, hend, hlen⟩ := read?_eq_some hr
    rw [hdecode, List.cons_append, List.append_assoc, List.cons_append,
      decode_of_read? (read?_of_body hread hend hlen _), ih, List.cons_append]
  | char c cs hr ih =>
    -- a reference that goes on would be one without `d` already
    have hnone : read? (c :: (cs ++ d :: rest)) = none := by
      by_contra hsome
      obtain ⟨⟨e, after⟩, hread⟩ := Option.ne_none_iff_exists'.mp hsome
      obtain ⟨body, hcs, hdecode, hend, hlen⟩ := read?_eq_some hread
      obtain ⟨rfl, htail⟩ := List.cons.inj hcs
      rw [show body ++ ';' :: after = (body ++ [';']) ++ after by simp] at htail
      rcases append_cons_eq_append htail with ⟨more, hin⟩ | ⟨before, rfl, -⟩
      · have hd : d ∈ body ++ [';'] := by simp [hin]
        rcases List.mem_append.mp hd with hd | hd
        · rw [isBodyChar_of_decodeBody? hdecode d hd] at hbody
          cases hbody
        · exact hsign.2 (List.mem_singleton.mp hd)
      · rw [List.append_assoc, List.singleton_append, read?_of_body hdecode hend hlen before] at hr
        cases hr
    rw [List.cons_append, decode_cons_of_none hnone, decode_cons_of_none hr, ih, List.cons_append]

end Reference

/-! ### What is read of a raw element -/

/-- The text inside an element of that name, as it is said by a token. -/
def rawContent (name : String) (content : List Char) : List Char :=
  if tagContent name = .rawText then content else Reference.decode content

section

variable {name : String} {k : Cursor}

theorem lexContent_of_raw (h : tagContent name ≠ .markup) :
    lexContent name k = lexRawText name (rawContent name) k := by
  unfold lexContent
  cases hcontent : tagContent name with
  | rawText =>
    have hraw : rawContent name = id := funext fun cs => by rw [rawContent, if_pos hcontent]; rfl
    rw [hraw]
  | escapableText =>
    have hraw : rawContent name = Reference.decode := funext fun cs => by
      rw [rawContent, hcontent, if_neg (by simp)]
    rw [hraw]
  | markup => exact absurd hcontent h

theorem lexRawText_lexemes (name : String) (decode : List Char → List Char) (k : Cursor) :
    (lexRawText name decode k).errors = [] ∧
      (lexRawText name decode k).next.rest =
        k.rest.drop (runUntil (closesRaw name) k.rest).length ∧
      (lexRawText name decode k).tokens.map (·.lexeme) =
        if (runUntil (closesRaw name) k.rest).isEmpty then []
        else [.text (String.ofList (decode (runUntil (closesRaw name) k.rest)))] := by
  unfold lexRawText
  dsimp only
  split
  · exact ⟨rfl, rfl, rfl⟩
  · exact ⟨rfl, rfl, rfl⟩

/-- The start tag of a raw element is read with the text that follows it. -/
theorem lexFrom_rawElement {rest : List Char} (named : IsTagName name)
    (hraw : tagContent name ≠ .markup) (hk : k.rest = '<' :: (name.toList ++ '>' :: rest)) :
    ∃ next : Cursor, next.rest = rest.drop (runUntil (closesRaw name) rest).length ∧
      (lexFrom k).2 = (lexFrom next).2 ∧
      (lexFrom k).1.map (·.lexeme) = .startTag name :: .startTagEnd ::
        ((if (runUntil (closesRaw name) rest).isEmpty then []
          else [.text (String.ofList (rawContent name (runUntil (closesRaw name) rest)))]) ++
        (lexFrom next).1.map (·.lexeme)) := by
  obtain ⟨hrun, htag, hnext⟩ := lexTagName_written named hk rfl
  obtain ⟨tokens, stop, hinside, hattributes, hend⟩ :=
    @lexAttributes_written [] _ _ (by simp) hnext
  cases hattributes
  have hafter : (stop.skip 1).rest = rest := @Cursor.rest_skip stop ['>'] _ _ hend rfl
  have htagEnd : lexTagEnd k name stop = LexStep.andThen
      ⟨[⟨.startTagEnd, stop.spanTo (stop.skip 1)⟩], [], stop.skip 1⟩
      (lexRawText name (rawContent name) (stop.skip 1)) := by
    rw [lexTagEnd, Cursor.startsWith, Cursor.startsWith, hend, ← lexContent_of_raw hraw]
    rfl
  obtain ⟨c, cs, hhead, halpha⟩ := named.head
  have hitem : lexItem k = ((lexTagName k).andThen ⟨[], [], stop⟩).andThen
      (LexStep.andThen ⟨[⟨.startTagEnd, stop.spanTo (stop.skip 1)⟩], [], stop.skip 1⟩
        (lexRawText name (rawContent name) (stop.skip 1))) := by
    have hstart : lexItem k = lexStartTag k := by
      rw [hhead] at hk
      exact lexItem_of_isAlpha hk halpha
    rw [hstart, lexStartTag, hrun, String.ofList_toList, hinside]
    dsimp only
    rw [htagEnd]
  have hname : (lexTagName k).tokens.map (·.lexeme) = [.startTag name] := by
    rw [lexTagName, hrun, String.ofList_toList]
    rfl
  obtain ⟨herrors, hlast, htokens⟩ := lexRawText_lexemes name (rawContent name) (stop.skip 1)
  rw [hafter] at hlast htokens
  refine ⟨(lexItem k).next, by rw [hitem]; exact hlast, ?_, ?_⟩
  · rw [lexFrom_of_ne_nil (by simp [hk]), hitem]
    simp [LexStep.andThen, htag, herrors]
  · rw [lexFrom_of_ne_nil (by simp [hk]), hitem]
    simp [LexStep.andThen, hname, htokens]

theorem lexFrom_endTag (named : IsTagName name) (hk : k.rest = (renderEndTag name).toList) :
    (lexFrom k).2 = [] ∧ (lexFrom k).1.map (·.lexeme) = [.endTag name, .endOfSource] := by
  have hne : k.rest ≠ [] := by simp [hk, renderEndTag]
  obtain ⟨span, htokens, herrors, hlast⟩ := lexItem_endTag named (by rw [hk, List.append_nil])
  have hend : lexFrom (lexItem k).next =
      ([⟨.endOfSource, (lexItem k).next.spanTo (lexItem k).next⟩], []) := by
    rw [lexFrom, dif_pos hlast]
  rw [lexFrom_of_ne_nil hne, hend, htokens, herrors]
  exact ⟨rfl, rfl⟩

theorem lexFrom_of_closesRaw (hcloses : closesRaw name k.rest = true) (hclean : (lexFrom k).2 = []) :
    ∃ name' lexemes, (lexFrom k).1.map (·.lexeme) = .endTag name' :: lexemes := by
  obtain ⟨rest, hk⟩ := exists_of_closesRaw hcloses
  rw [lexFrom_of_ne_nil (by simp [hk])] at hclean ⊢
  obtain ⟨name', span, htokens⟩ := lexItem_of_closesRaw hcloses (List.append_eq_nil_iff.mp hclean).1
  rw [htokens]
  exact ⟨name', _, rfl⟩

end

/-! ### End tags in a content -/

/-- `</` and the name, in any case. -/
def SpellsEndTag (name : String) (part : List Char) : Prop :=
  part.map Char.toLower = '<' :: '/' :: name.toList.map Char.toLower

/-- The start of an end tag of that name is a part of the content. -/
def HasEndTagStart (name : String) (content : List Char) : Prop :=
  ∃ before part after, content = before ++ (part ++ after) ∧ SpellsEndTag name part

/-- The start of an end tag of that name is a part of the content, and the name ends there. -/
def HasEndTag (name : String) (content : List Char) : Prop :=
  ∃ before part c after, content = before ++ (part ++ c :: after) ∧ SpellsEndTag name part ∧
    (isMarkupSpace c = true ∨ c = '/' ∨ c = '>')

section

variable {name : String} {content : List Char}

theorem closesRaw_iff {cs : List Char} :
    closesRaw name cs = true ↔ ∃ part rest, cs = part ++ rest ∧ SpellsEndTag name part := by
  unfold closesRaw SpellsEndTag
  simp only [toList_toLower, beq_iff_eq]
  constructor
  · intro h
    exact ⟨_, _, (List.take_append_drop _ cs).symm, h⟩
  · rintro ⟨part, rest, rfl, hpart⟩
    have hlen := congrArg List.length hpart
    rw [List.length_map] at hlen
    rw [← hlen, List.take_left, hpart]

theorem hasEndTagStart_iff :
    HasEndTagStart name content ↔ ∃ s, s <:+ content ∧ closesRaw name s = true := by
  constructor
  · rintro ⟨before, part, after, rfl, hpart⟩
    exact ⟨_, List.suffix_append _ _, closesRaw_iff.mpr ⟨part, after, rfl, hpart⟩⟩
  · rintro ⟨s, ⟨before, rfl⟩, hs⟩
    obtain ⟨part, after, rfl, hpart⟩ := closesRaw_iff.mp hs
    exact ⟨before, part, after, rfl, hpart⟩

instance : Decidable (HasEndTagStart name content) :=
  decidable_of_iff (content.tails.any (closesRaw name) = true)
    (by simp [hasEndTagStart_iff])

/-! ### Where the text of an element ends -/

/-- A content with an end tag in it is read up to a `<` of its own. -/
theorem runUntil_closesRaw_of_hasEndTagStart (h : HasEndTagStart name content) (rest : List Char) :
    ∃ more, content = runUntil (closesRaw name) (content ++ rest) ++ '<' :: more ∧
      closesRaw name ('<' :: more ++ rest) = true := by
  obtain ⟨s, ⟨before, rfl⟩, hs⟩ := hasEndTagStart_iff.mp h
  generalize hrun : runUntil (closesRaw name) (before ++ s ++ rest) = run
  obtain ⟨left, hsplit, hlast, hinside⟩ := exists_runUntil (closesRaw name) (before ++ s ++ rest)
  rw [hrun] at hsplit hinside
  rw [List.append_assoc] at hsplit
  have hcloses := closesRaw_append hs rest
  rcases List.append_eq_append_iff.mp hsplit with ⟨t, rfl, hleft⟩ | ⟨t, rfl, hleft⟩
  · -- the run cannot go over the end tag
    cases t with
    | nil =>
      obtain ⟨tail, rfl⟩ := exists_of_closesRaw hs
      exact ⟨'/' :: tail, by simp, hcloses⟩
    | cons c t =>
      have hnot := hinside (c :: t) (by simp) (List.suffix_append _ _)
      rw [← hleft, hcloses] at hnot
      cases hnot
  · -- an earlier one stopped the run, and it begins in the content too
    have hleftCloses : closesRaw name left = true := by
      refine hlast.resolve_left fun hnil => ?_
      rw [hleft, List.append_eq_nil_iff, List.append_eq_nil_iff] at hnil
      rw [hnil.2.1, not_closesRaw_nil] at hs
      cases hs
    have hne : t ++ s ≠ [] := by
      intro hnil
      rw [(List.append_eq_nil_iff.mp hnil).2, not_closesRaw_nil] at hs
      cases hs
    obtain ⟨c, more, hmore⟩ := List.exists_cons_of_ne_nil hne
    rw [← List.append_assoc, hmore] at hleft
    obtain ⟨tail, hopen⟩ := exists_of_closesRaw (hleft ▸ hleftCloses)
    obtain rfl := (List.cons.inj hopen).1
    exact ⟨more, by rw [List.append_assoc, hmore], hleft ▸ hleftCloses⟩

theorem rawContent_append_ne (before more : List Char) :
    rawContent name (before ++ '<' :: more) ≠ rawContent name before := by
  intro h
  have hlength := congrArg List.length h
  unfold rawContent at hlength
  split at hlength
  · simp at hlength
  · rw [Reference.decode_append_cons (by decide) (by decide)] at hlength
    simp at hlength

end

/-! ### A raw element -/

def rawElement (name content : String) : String :=
  "<" ++ name ++ ">" ++ content ++ "</" ++ name ++ ">"

/-- An element that is raw is read as one text between two tags exactly when no end tag of it begins in
its content. -/
theorem lex_rawElement_iff {name content : String} (url : String) (raw : tagContent name ≠ .markup)
    (nonempty : content ≠ "") (unreturned : '\r' ∉ content.toList) :
    ((lex (rawElement name content) url).errors = [] ∧
      (lex (rawElement name content) url).tokens.map (·.lexeme) =
        [.startTag name, .startTagEnd, .text (String.ofList (rawContent name content.toList)),
          .endTag name, .endOfSource]) ↔
      ¬ HasEndTagStart name content.toList := by
  have named := isTagName_of_raw raw
  have hreturn : '\r' ∉ name.toList := fun hmem => absurd (named.inside _ hmem) (by decide)
  have htext : unifyLineEnds (rawElement name content).toList =
      '<' :: (name.toList ++ '>' :: (content.toList ++ (renderEndTag name).toList)) := by
    rw [unifyLineEnds_of_no_return (by simp [rawElement, hreturn, unreturned])]
    simp [rawElement, renderEndTag]
  have hne : content.toList ≠ [] := fun h => nonempty (String.toList_eq_nil_iff.mp h)
  obtain ⟨next, hnext, herrors, htokens⟩ := lexFrom_rawElement (k := ⟨.start, _⟩) named raw htext
  unfold lex
  dsimp only
  rw [herrors, htokens]
  constructor
  · rintro ⟨hclean, htokens⟩ hstart
    obtain ⟨more, hcontent, hcloses⟩ :=
      runUntil_closesRaw_of_hasEndTagStart hstart (renderEndTag name).toList
    generalize runUntil (closesRaw name) (content.toList ++ (renderEndTag name).toList) = run
      at hcontent hnext htokens
    split at htokens
    · -- no text is read, so the end tag that begins the content comes first
      rename_i hnil
      obtain rfl := List.isEmpty_iff.mp hnil
      have hrest : closesRaw name next.rest = true := by
        rw [hnext, hcontent]
        exact hcloses
      obtain ⟨name', lexemes, hfirst⟩ := lexFrom_of_closesRaw hrest hclean
      rw [hfirst] at htokens
      simp at htokens
    · have hsame : rawContent name run = rawContent name content.toList := by
        have htexts : Lexeme.text _ = Lexeme.text _ := (List.cons.inj
          (List.cons.inj (List.cons.inj htokens).2).2).1
        exact String.ofList_injective (Lexeme.text.inj htexts)
      rw [hcontent] at hsame
      exact rawContent_append_ne run more hsame.symm
  · intro hstart
    have hopen : ∀ s, s <:+ content.toList → closesRaw name s = false := fun s hs => by
      rw [← Bool.not_eq_true]
      exact fun hcloses => hstart (hasEndTagStart_iff.mpr ⟨s, hs, hcloses⟩)
    have hrun := runUntil_closesRaw named hopen []
    rw [List.append_nil] at hrun
    rw [hrun] at hnext ⊢
    rw [List.drop_left] at hnext
    obtain ⟨hclean, hlast⟩ := lexFrom_endTag named hnext
    rw [if_neg (by simpa using hne), hclean, hlast]
    exact ⟨rfl, rfl⟩

def noteContent : String := "&lt;b>&</b></ti"

theorem lex_rawElement_noteContent :
    (lex (rawElement "title" noteContent) "").errors = [] ∧
      (lex (rawElement "title" noteContent) "").tokens.map (·.lexeme) =
        [.startTag "title", .startTagEnd, .text "<b>&</b></ti", .endTag "title", .endOfSource] := by
  have hdecoded : String.ofList (rawContent "title" noteContent.toList) = "<b>&</b></ti" := by
    decide +kernel
  have hread := (@lex_rawElement_iff "title" noteContent ""
    (by decide +kernel) (by decide +kernel) (by decide +kernel)).mpr (by decide +kernel)
  rwa [hdecoded] at hread

/-- A script ends at the end tag of an element that has a longer name. -/
theorem script_ends_at_longer_name :
    ¬ HasEndTag "script" "</scriptx>".toList ∧
      (lex (rawElement "script" "</scriptx>") "").tokens.map (·.lexeme) =
        [.startTag "script", .startTagEnd, .endTag "scriptx", .endTag "script", .endOfSource] := by
  refine ⟨?_, by decide +kernel⟩
  rintro ⟨before, part, c, after, h, hpart, hc⟩
  have hlength : part.length = 8 := by
    rw [← List.length_map Char.toLower, hpart]
    rfl
  match before with
  | [] =>
    have hat := congrArg (·[8]?) h
    simp only [List.nil_append, List.getElem?_append_right hlength.le, hlength, Nat.sub_self,
      List.getElem?_cons_zero] at hat
    obtain rfl : 'x' = c := Option.some.inj hat
    exact absurd hc (by decide)
  | b :: before =>
    obtain ⟨more, hopen⟩ := exists_of_closesRaw
      (closesRaw_iff.mpr ⟨part, [], (List.append_nil _).symm, hpart⟩)
    have hmem : '<' ∈ "</scriptx>".toList.tail := by
      rw [h, hopen]
      simp
    exact absurd hmem (by decide)

end LiveMarkup
