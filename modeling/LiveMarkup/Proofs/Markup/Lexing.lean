import LiveMarkup.Proofs.Markup.AttributeNames
import LiveMarkup.Proofs.Markup.Grammar

namespace LiveMarkup

namespace Table

variable {α : Type}

theorem nodup_names_ofEntries (entries : List (String × α)) : (ofEntries entries).names.Nodup := by
  have hfold : ∀ (entries : List (String × α)) (t : Table α), t.names.Nodup →
      (entries.foldl (fun t e => t.put e.1 e.2) t).names.Nodup := by
    intro entries
    induction entries with
    | nil => exact fun t ht => ht
    | cons e entries ih => exact fun t ht => ih _ (nodup_names_put ht _ _)
  exact hfold entries .empty List.nodup_nil

theorem mem_names_ofEntries {entries : List (String × α)} {n : String}
    (h : n ∈ (ofEntries entries).names) : n ∈ entries.map (·.1) := by
  have hfold : ∀ (entries : List (String × α)) (t : Table α),
      n ∈ (entries.foldl (fun t e => t.put e.1 e.2) t).names →
        n ∈ t.names ∨ n ∈ entries.map (·.1) := by
    intro entries
    induction entries with
    | nil => exact fun t ht => .inl ht
    | cons e entries ih =>
      intro t ht
      rcases ih _ ht with ht | ht
      · exact (mem_names_put.mp ht).imp_right fun he => by simp [he]
      · exact .inr (List.mem_cons_of_mem _ ht)
  exact (hfold entries .empty h).resolve_left (by simp [Table.empty, names])

theorem ofEntries_entries {t : Table α} (h : t.names.Nodup) : ofEntries t.entries = t := by
  have hfold : ∀ (entries before : List (String × α)), ((before ++ entries).map (·.1)).Nodup →
      entries.foldl (fun t e => t.put e.1 e.2) ⟨before⟩ = (⟨before ++ entries⟩ : Table α) := by
    intro entries
    induction entries with
    | nil => simp
    | cons e entries ih =>
      intro before hn
      have hnew : e.1 ∉ (Table.mk before).names := by
        rw [List.map_append, List.nodup_append] at hn
        exact fun hmem => hn.2.2 e.1 hmem e.1 (by simp) rfl
      rw [List.foldl_cons, put_of_not_mem e.2 hnew, ih _ (by simpa using hn)]
      simp
  exact hfold t.entries [] h

end Table

theorem areAttributes_ofEntries {entries : List (String × String)}
    (h : ∀ a ∈ entries, IsAttributeName a.1) : AreAttributes (Table.ofEntries entries) := by
  refine ⟨Table.nodup_names_ofEntries entries, fun n hn => ?_⟩
  obtain ⟨a, ha, rfl⟩ := List.mem_map.mp (Table.mem_names_ofEntries hn)
  exact h a ha

/-- The tokens of attributes with these names and values. -/
inductive AttributeRun : List Token → List (String × String) → Prop where
  | nil : AttributeRun [] []
  | bare {name : String} {span : Span} {tokens : List Token} {entries : List (String × String)}
      (named : IsAttributeName name) (rest : AttributeRun tokens entries) :
      AttributeRun (⟨.attributeName name, span⟩ :: tokens) ((name, "") :: entries)
  | valued {name value : String} {span span' : Span} {tokens : List Token}
      {entries : List (String × String)} (named : IsAttributeName name)
      (rest : AttributeRun tokens entries) :
      AttributeRun (⟨.attributeName name, span⟩ :: ⟨.attributeValue value, span'⟩ :: tokens)
        ((name, value) :: entries)

namespace AttributeRun

variable {tokens : List Token} {entries : List (String × String)}

theorem append {tokens' : List Token} {entries' : List (String × String)}
    (h : AttributeRun tokens entries) (h' : AttributeRun tokens' entries') :
    AttributeRun (tokens ++ tokens') (entries ++ entries') := by
  induction h with
  | nil => exact h'
  | bare named _ ih => exact .bare named ih
  | valued named _ ih => exact .valued named ih

theorem named (h : AttributeRun tokens entries) : ∀ a ∈ entries, IsAttributeName a.1 := by
  induction h with
  | nil => simp
  | bare named _ ih | valued named _ ih =>
    intro a ha
    rcases List.mem_cons.mp ha with rfl | ha
    · exact named
    · exact ih a ha

theorem ofTokens_append (h : AttributeRun tokens entries) (rest : List Token) :
    Item.ofTokens (tokens ++ rest) = Item.ofTokens rest := by
  induction h with
  | nil => rfl
  | bare _ _ ih | valued _ _ ih => exact ih

theorem attributes_append (h : AttributeRun tokens entries) {e : Token}
    (he : Item.isAttribute e = false) (rest : List Token) :
    Item.attributes (tokens ++ e :: rest) = entries := by
  induction h with
  | nil =>
    obtain ⟨lexeme, span⟩ := e
    cases lexeme with
    | attributeName => cases he
    | _ => rfl
  | @bare name span tokens entries _ hrest ih =>
    have hhead : ∀ value span' rest', tokens ++ e :: rest = ⟨.attributeValue value, span'⟩ :: rest' →
        False := by
      intro value span' rest' heq
      cases hrest with
      | nil =>
        rw [(List.cons.inj heq).1] at he
        cases he
      | bare | valued => cases (List.cons.inj heq).1
    rw [List.cons_append, Item.attributes.eq_2 _ _ _ hhead, ih]
  | valued _ _ ih =>
    rw [List.cons_append, List.cons_append, Item.attributes, ih]

theorem isSelfClosing_append (h : AttributeRun tokens entries) (rest : List Token) :
    Item.isSelfClosing (tokens ++ rest) = Item.isSelfClosing rest := by
  induction h with
  | nil => rfl
  | bare _ _ ih | valued _ _ ih => exact ih

theorem ofTokens_startTag (h : AttributeRun tokens entries) (name : String) (span : Span) {stop : Token}
    (hstop : Item.isAttribute stop = false) (rest : List Token) :
    Item.ofTokens (⟨.startTag name, span⟩ :: (tokens ++ stop :: rest)) =
      .opening name (Table.ofEntries entries) (Item.isSelfClosing (stop :: rest)) span ::
        Item.ofTokens (stop :: rest) := by
  rw [Item.ofTokens, h.attributes_append hstop, h.isSelfClosing_append, h.ofTokens_append]

end AttributeRun

theorem lexValue_tokens (k : Cursor) : (lexValue k).tokens = [] ∨
    ∃ value span, (lexValue k).tokens = [⟨.attributeValue value, span⟩] := by
  have hquoted : ∀ q rest, (lexValue.quoted k q rest).tokens = [] ∨
      ∃ value span, (lexValue.quoted k q rest).tokens = [⟨.attributeValue value, span⟩] := by
    intro q rest
    unfold lexValue.quoted
    dsimp only
    split
    · exact .inl rfl
    · exact .inr ⟨_, _, rfl⟩
  unfold lexValue
  split
  · exact hquoted _ _
  · exact hquoted _ _
  · exact .inr ⟨_, _, rfl⟩

theorem lexAttribute_run {k : Cursor} {c : Char} {rest : List Char} (hk : k.rest = c :: rest)
    (hc : endsName c = false) : ∃ entries, AttributeRun (lexAttribute k).tokens entries := by
  have hname : IsAttributeName (String.ofList (nameRun k)) := by
    constructor
    · rw [String.toList_ofList, nameRun, hk, List.takeWhile_cons_of_pos (by simpa using hc)]
      simp
    · rw [String.toList_ofList]
      exact fun d hd => by simpa using List.mem_takeWhile_imp hd
  unfold lexAttribute
  dsimp only
  split
  · rw [LexStep.andThen]
    rcases lexValue_tokens ((k.skip (nameRun k).length).skipSpace.skip 1).skipSpace with
      hnone | ⟨value, span, hvalue⟩
    · rw [hnone]
      exact ⟨_, .bare hname .nil⟩
    · rw [hvalue]
      exact ⟨_, .valued hname .nil⟩
  · exact ⟨_, .bare hname .nil⟩

theorem lexAttributes_nil {k : Cursor} (h : k.skipSpace.rest = []) :
    lexAttributes k = ⟨[], [], k.skipSpace⟩ := by
  rw [lexAttributes]
  split
  · rfl
  · rename_i heq
    rw [h] at heq
    cases heq

theorem lexAttributes_cons {k : Cursor} {c : Char} {rest : List Char}
    (h : k.skipSpace.rest = c :: rest) :
    lexAttributes k =
      if c = '>' || (c = '/' && ['>'].isPrefixOf rest) then ⟨[], [], k.skipSpace⟩
      else if endsName c then
        (lexStray c k.skipSpace).andThen (lexAttributes (lexStray c k.skipSpace).next)
      else (lexAttribute k.skipSpace).andThen (lexAttributes (lexAttribute k.skipSpace).next) := by
  rw [lexAttributes]
  split
  · rename_i heq
    rw [h] at heq
    cases heq
  · rename_i heq
    obtain ⟨rfl, rfl⟩ := List.cons.inj (h.symm.trans heq)
    rfl

theorem lexAttributes_run (k : Cursor) : ∃ entries, AttributeRun (lexAttributes k).tokens entries := by
  fun_induction lexAttributes k with
  | case1 | case2 => exact ⟨[], .nil⟩
  | case3 k c rest hk hend he ih => exact ih
  | case4 k c rest hk hend he ih =>
    obtain ⟨entries, hrun⟩ := lexAttribute_run hk (by simpa using he)
    obtain ⟨entries', hrun'⟩ := ih
    exact ⟨_, hrun.append hrun'⟩

/-- The step finds no error, and its tokens amount to these items whatever tokens follow. -/
structure LexStep.Gives (s : LexStep) (items : List Item) : Prop where
  errors : s.errors = []
  items : ∀ rest, Item.ofTokens (s.tokens ++ rest) = items ++ Item.ofTokens rest

/-- What a step may amount to, with the text that is left to read. -/
inductive Item.Found (rest : List Char) : List Item → Prop where
  | nothing : Item.Found rest []
  | text (value : String) : Item.Found rest [.text value]
  | comment {value : String} (valid : IsComment value) : Item.Found rest [.comment value]
  | closing (name : String) (span : Span) : Item.Found rest [.closing name span]
  | empty {name : String} {attributes : Table String} {span : Span} (named : IsTagName name)
      (written : AreAttributes attributes) : Item.Found rest [.opening name attributes true span]
  | opening {name : String} {attributes : Table String} {span : Span} (named : IsTagName name)
      (written : AreAttributes attributes) (content : tagContent name = .markup) :
      Item.Found rest [.opening name attributes false span]
  | verbatim {name : String} {attributes : Table String} {span : Span} {value? : Option String}
      (named : IsTagName name) (written : AreAttributes attributes)
      (content : tagContent name ≠ .markup) (inside : ∀ value ∈ value?, IsVerbatim name value)
      (last : rest = [] ∨ closesRaw name rest = true) :
      Item.Found rest (.opening name attributes false span :: value?.toList.map .text)

theorem lexContent_of_markup {name : String} (h : tagContent name = .markup) (k : Cursor) :
    lexContent name k = ⟨[], [], k⟩ := by
  rw [lexContent, h]

theorem Cursor.rest_skip {k : Cursor} {run rest : List Char} {n : Nat} (h : k.rest = run ++ rest)
    (hn : n = run.length) : (k.skip n).rest = rest := by
  rw [skip]
  simp [h, hn]

theorem lexRawText_found {name : String} {decode : List Char → List Char} (k : Cursor)
    (hraw : tagContent name = .rawText → decode = id) (hdecode : ∀ cs, cs ≠ [] → decode cs ≠ []) :
    ∃ value? : Option String, (lexRawText name decode k).Gives (value?.toList.map .text) ∧
      (∀ value ∈ value?, IsVerbatim name value) ∧
      ((lexRawText name decode k).next.rest = [] ∨
        closesRaw name (lexRawText name decode k).next.rest = true) := by
  obtain ⟨rest, hk, hlast, hinside⟩ := exists_runUntil (closesRaw name) k.rest
  have hrest := Cursor.rest_skip hk rfl
  unfold lexRawText
  dsimp only
  split
  · exact ⟨none, ⟨rfl, fun _ => rfl⟩, by simp, by rwa [hrest]⟩
  · rename_i hrun
    rw [List.isEmpty_iff] at hrun
    refine ⟨some (String.ofList (decode (runUntil (closesRaw name) k.rest))), ⟨rfl, fun _ => rfl⟩,
      ?_, by rwa [hrest]⟩
    intro value hvalue
    obtain rfl := Option.some.inj hvalue
    refine ⟨fun he => hdecode _ hrun ?_, fun hcontent s hs => ?_⟩
    · rw [← String.toList_ofList (l := decode _), he, String.toList_empty]
    · rw [hraw hcontent, id, String.toList_ofList] at hs
      by_cases hnil : s = []
      · rw [hnil, not_closesRaw_nil]
      · rw [← Bool.not_eq_true]
        intro hcloses
        have hnot := hinside s hnil hs
        rw [closesRaw_append hcloses rest] at hnot
        cases hnot

theorem lexContent_found {name : String} (h : tagContent name ≠ .markup) (k : Cursor) :
    ∃ value? : Option String, (lexContent name k).Gives (value?.toList.map .text) ∧
      (∀ value ∈ value?, IsVerbatim name value) ∧
      ((lexContent name k).next.rest = [] ∨
        closesRaw name (lexContent name k).next.rest = true) := by
  unfold lexContent
  split
  · exact lexRawText_found k (fun _ => rfl) fun _ h => h
  · rename_i hescapable
    refine lexRawText_found k (fun hraw => ?_) fun _ => Reference.decode_nonempty
    rw [hescapable] at hraw
    cases hraw
  · exact absurd ‹_› h

theorem lexDelimited_found {opening : Nat} {closing : List Char} {lexeme : String → Lexeme}
    {message : String} {k : Cursor} (hclosing : closing ≠ [])
    (h : (lexDelimited opening closing lexeme message k).errors = []) :
    ∃ body span, (lexDelimited opening closing lexeme message k).tokens = [⟨lexeme body, span⟩] ∧
      ¬ closing <:+: body.toList ∧ body.toList <:+: k.rest := by
  obtain ⟨rest, hk, hlast, hinside⟩ := exists_runUntil closing.isPrefixOf (k.rest.drop opening)
  unfold lexDelimited at h ⊢
  dsimp only at h ⊢
  split at h
  · cases h
  · rename_i hend
    rw [if_neg hend]
    refine ⟨_, _, rfl, ?_, ?_⟩
    · rw [String.toList_ofList]
      rintro ⟨before, after, hbody⟩
      rw [List.append_assoc] at hbody
      have hnot := hinside (closing ++ after) (by simp [hclosing]) ⟨before, hbody⟩
      rw [List.append_assoc, List.isPrefixOf_iff_prefix.mpr (List.prefix_append _ _)] at hnot
      cases hnot
    · rw [String.toList_ofList]
      have hdrop : runUntil closing.isPrefixOf (k.rest.drop opening) <+: k.rest.drop opening :=
        ⟨rest, hk.symm⟩
      exact hdrop.isInfix.trans (List.drop_suffix _ _).isInfix

theorem isTagName_of_lexTagName {k : Cursor} {c : Char} {rest : List Char}
    (hk : k.rest = '<' :: c :: rest) (hc : c.isAlpha = true) (h : (lexTagName k).errors = []) :
    IsTagName (String.ofList (nameRun (k.skip 1))) := by
  have hrest : (k.skip 1).rest = c :: rest := by
    rw [Cursor.skip, hk]
    rfl
  have hends : endsName c = false := endsName_of_isTagNameChar (isTagNameChar_of_isAlpha hc)
  constructor
  · rw [String.toList_ofList, nameRun, hrest, List.takeWhile_cons_of_pos (by simpa using hends)]
    exact ⟨c, _, rfl, hc⟩
  · rw [String.toList_ofList]
    unfold lexTagName at h
    dsimp only at h
    split at h
    · exact List.all_eq_true.mp ‹_›
    · cases h

theorem lexTagEnd_found {start k : Cursor} {name : String} (h : (lexTagEnd start name k).errors = []) :
    (∃ span, lexTagEnd start name k = ⟨[⟨.startTagEndVoid, span⟩], [], k.skip 2⟩) ∨
      ∃ span, lexTagEnd start name k =
        LexStep.andThen ⟨[⟨.startTagEnd, span⟩], [], k.skip 1⟩ (lexContent name (k.skip 1)) := by
  unfold lexTagEnd at h ⊢
  split at h
  · rename_i hvoid
    rw [if_pos hvoid]
    exact .inl ⟨_, rfl⟩
  · rename_i hvoid
    rw [if_neg hvoid]
    split at h
    · rename_i hend
      rw [if_pos hend]
      exact .inr ⟨_, rfl⟩
    · cases h

theorem LexStep.Gives.nil (k : Cursor) : LexStep.Gives ⟨[], [], k⟩ [] := ⟨rfl, fun _ => rfl⟩

theorem startTag_gives {k : Cursor} {inside content : LexStep} {entries : List (String × String)}
    {span : Span} {items : List Item} (selfClosing : Bool) (next : Cursor) (htag : (lexTagName k).errors = [])
    (hinside : inside.errors = []) (hrun : AttributeRun inside.tokens entries)
    (hcontent : content.Gives items) :
    (((lexTagName k).andThen inside).andThen (LexStep.andThen
      ⟨[⟨bif selfClosing then .startTagEndVoid else .startTagEnd, span⟩], [], next⟩ content)).Gives
      (.opening (String.ofList (nameRun (k.skip 1))) (Table.ofEntries entries) selfClosing
        (k.spanTo (k.skip (1 + (nameRun (k.skip 1)).length))) :: items) := by
  have hend : Item.isAttribute ⟨bif selfClosing then .startTagEndVoid else .startTagEnd, span⟩ =
      false := by
    cases selfClosing <;> rfl
  refine ⟨?_, fun rest => ?_⟩
  · simp only [LexStep.andThen, htag, hinside, hcontent.errors, List.append_nil]
  · simp only [LexStep.andThen, lexTagName, List.append_assoc, List.cons_append, List.nil_append,
      Item.ofTokens, hrun.ofTokens_append, hrun.attributes_append hend, hrun.isSelfClosing_append,
      List.cons.injEq]
    cases selfClosing
    · exact ⟨rfl, hcontent.items rest⟩
    · exact ⟨rfl, hcontent.items rest⟩

theorem lexStartTag_found {k : Cursor} {c : Char} {rest : List Char} (hk : k.rest = '<' :: c :: rest)
    (hc : c.isAlpha = true) (h : (lexStartTag k).errors = []) :
    ∃ items, (lexStartTag k).Gives items ∧ Item.Found (lexStartTag k).next.rest items := by
  obtain ⟨hopening, hend⟩ := List.append_eq_nil_iff.mp h
  obtain ⟨htag, hinside⟩ := List.append_eq_nil_iff.mp hopening
  have hname := isTagName_of_lexTagName hk hc htag
  obtain ⟨entries, hrun⟩ := lexAttributes_run (lexTagName k).next
  have hwritten := areAttributes_ofEntries hrun.named
  unfold lexStartTag
  dsimp only
  rcases lexTagEnd_found hend with ⟨span, hvoid⟩ | ⟨span, hopen⟩
  · rw [hvoid]
    exact ⟨_, startTag_gives true k htag hinside hrun (.nil _), .empty hname hwritten⟩
  · rw [hopen]
    by_cases hcontent : tagContent (String.ofList (nameRun (k.skip 1))) = .markup
    · rw [lexContent_of_markup hcontent]
      exact ⟨_, startTag_gives false _ htag hinside hrun (.nil _), .opening hname hwritten hcontent⟩
    · obtain ⟨value?, hgives, hverbatim, hlast⟩ := lexContent_found hcontent
        ((lexAttributes (lexTagName k).next).next.skip 1)
      exact ⟨_, startTag_gives false _ htag hinside hrun hgives,
        .verbatim hname hwritten hcontent hverbatim hlast⟩

theorem lexEndTag_found {k : Cursor} (h : (lexEndTag k).errors = []) :
    ∃ name span, (lexEndTag k).tokens = [⟨.endTag name, span⟩] := by
  unfold lexEndTag at h ⊢
  dsimp only at h ⊢
  split at h
  · rename_i hend
    rw [if_pos hend]
    exact ⟨_, _, rfl⟩
  · cases h

theorem exists_of_opensMarkup {cs : List Char} (h : opensMarkup cs = true) :
    ∃ c rest, cs = '<' :: c :: rest ∧ (c.isAlpha = true ∨ c = '/' ∨ c = '!') := by
  unfold opensMarkup at h
  split at h
  · exact ⟨_, _, rfl, by simpa [or_assoc] using h⟩
  · cases h

/-- What a step finds that finds no error. -/
theorem lexItem_found {k : Cursor} (hreturn : '\r' ∉ k.rest) (h : (lexItem k).errors = []) :
    ∃ items, (lexItem k).Gives items ∧ Item.Found (lexItem k).next.rest items := by
  unfold lexItem at h ⊢
  by_cases hopens : opensMarkup k.rest = true
  · rw [if_pos hopens] at h ⊢
    unfold lexMarkup at h ⊢
    split at h
    · split_ifs at h ⊢ with hsection hcomment
      · obtain ⟨body, span, htokens, -⟩ := lexDelimited_found (by simp) h
        exact ⟨_, ⟨h, fun rest => by rw [htokens]; rfl⟩, .text body⟩
      · obtain ⟨body, span, htokens, hunclosed, hpart⟩ := lexDelimited_found (by simp) h
        exact ⟨_, ⟨h, fun rest => by rw [htokens]; rfl⟩,
          .comment ⟨hunclosed, fun hmem => hreturn (hpart.subset hmem)⟩⟩
      · obtain ⟨body, span, htokens, -⟩ := lexDelimited_found (by simp) h
        exact ⟨_, ⟨h, fun rest => by rw [htokens]; rfl⟩, .nothing⟩
    · obtain ⟨name, span, htokens⟩ := lexEndTag_found h
      exact ⟨_, ⟨h, fun rest => by rw [htokens]; rfl⟩, .closing name span⟩
    · rename_i hno hnot
      obtain ⟨c, rest, hk, halpha | rfl | rfl⟩ := exists_of_opensMarkup hopens
      · exact lexStartTag_found hk halpha h
      · exact absurd hk (hnot rest)
      · exact absurd hk (hno rest)
  · rw [if_neg hopens]
    exact ⟨[.text _], ⟨rfl, fun _ => rfl⟩, .text _⟩

theorem lexFrom_of_ne_nil {k : Cursor} (hk : k.rest ≠ []) :
    lexFrom k = ((lexItem k).tokens ++ (lexFrom (lexItem k).next).1,
      (lexItem k).errors ++ (lexFrom (lexItem k).next).2) := by
  rw [lexFrom, dif_neg hk]

theorem lexItem_of_slash {k : Cursor} {rest : List Char} (hk : k.rest = '<' :: '/' :: rest) :
    lexItem k = lexEndTag k := by
  unfold lexItem lexMarkup
  rw [hk]
  rfl

/-- An end tag is all that is read where the end of a raw element is. -/
theorem lexItem_of_closesRaw {name : String} {k : Cursor} (hcloses : closesRaw name k.rest = true)
    (h : (lexItem k).errors = []) : ∃ name' span, (lexItem k).tokens = [⟨.endTag name', span⟩] := by
  obtain ⟨rest, hk⟩ := exists_of_closesRaw hcloses
  rw [lexItem_of_slash hk] at h ⊢
  exact lexEndTag_found h

end LiveMarkup
