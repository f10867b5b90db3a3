import LiveMarkup.Proofs.Markup.Lexing

/-!
# The grammar of tokens

The tokens of a text are a sequence of whole items. Only behind the last of them a start tag may be cut
short, which is an error.
-/

namespace LiveMarkup

def Token.endsStartTag (t : Token) : Prop := t.lexeme = .startTagEnd ∨ t.lexeme = .startTagEndVoid

structure StartTag where
  name : String
  attributes : List (String × String)

/-- The tokens of an item, and the start tags among them. -/
inductive TokenGroup : List Token → List StartTag → Prop where
  | text {value : String} (nonempty : value ≠ "") (span : Span) : TokenGroup [⟨.text value, span⟩] []
  | comment (value : String) (span : Span) : TokenGroup [⟨.comment value, span⟩] []
  | cdata (value : String) (span : Span) : TokenGroup [⟨.cdata value, span⟩] []
  | doctype (value : String) (span : Span) : TokenGroup [⟨.doctype value, span⟩] []
  | endTag (name : String) (span : Span) : TokenGroup [⟨.endTag name, span⟩] []
  | startTag (name : String) (span : Span) {inside : List Token} {entries : List (String × String)}
      {stop : Token} (attributes : AttributeRun inside entries) (ends : stop.endsStartTag) :
      TokenGroup (⟨.startTag name, span⟩ :: (inside ++ [stop])) [⟨name, entries⟩]

/-- The tokens of a text, and the start tags among them. Only in a faulty text the last start tag may
have no end. -/
inductive TokenStream (faulty : Prop) : List Token → List StartTag → Prop where
  | finished (span : Span) : TokenStream faulty [⟨.endOfSource, span⟩] []
  | unfinished (name : String) (span span' : Span) {inside : List Token}
      {entries : List (String × String)} (attributes : AttributeRun inside entries) (fault : faulty) :
      TokenStream faulty (⟨.startTag name, span⟩ :: (inside ++ [⟨.endOfSource, span'⟩]))
        [⟨name, entries⟩]
  | group {tokens tokens' : List Token} {tags tags' : List StartTag}
      (first : TokenGroup tokens tags) (rest : TokenStream faulty tokens' tags') :
      TokenStream faulty (tokens ++ tokens') (tags ++ tags')

/-- What a step reads in front of a stream makes a stream again. -/
def LexStep.Adds (faulty : Prop) (s : LexStep) : Prop :=
  ∃ tags, ∀ tokens tags', TokenStream faulty tokens tags' →
    TokenStream faulty (s.tokens ++ tokens) (tags ++ tags')

namespace LexStep.Adds

variable {faulty : Prop} {s t : LexStep}

theorem of_none {errors : List Diagnostic} {next : Cursor} : Adds faulty ⟨[], errors, next⟩ :=
  ⟨[], fun _ _ h => h⟩

theorem of_group {tokens : List Token} {tags : List StartTag} {errors : List Diagnostic} {next : Cursor}
    (h : TokenGroup tokens tags) : Adds faulty ⟨tokens, errors, next⟩ :=
  ⟨tags, fun _ _ hrest => .group h hrest⟩

theorem andThen (h : s.Adds faulty) (h' : t.Adds faulty) : (s.andThen t).Adds faulty := by
  obtain ⟨tags, hs⟩ := h
  obtain ⟨tags', ht⟩ := h'
  refine ⟨tags ++ tags', fun tokens tags'' hrest => ?_⟩
  rw [LexStep.andThen, List.append_assoc, List.append_assoc]
  exact hs _ _ (ht _ _ hrest)

end LexStep.Adds

theorem LexStep.andThen_assoc (s t u : LexStep) :
    (s.andThen t).andThen u = s.andThen (t.andThen u) := by
  simp [andThen]

theorem ofList_ne_empty {cs : List Char} (h : cs ≠ []) : String.ofList cs ≠ "" := fun he =>
  h (by rw [← String.toList_ofList (l := cs), he, String.toList_empty])

section Steps

variable {faulty : Prop} {k : Cursor}

theorem lexText_adds (hk : k.rest ≠ []) (h : opensMarkup k.rest = false) :
    (lexText k).Adds faulty := by
  refine .of_group (.text (ofList_ne_empty (Reference.decode_nonempty ?_)) _)
  obtain ⟨c, rest, hrest⟩ := List.exists_cons_of_ne_nil hk
  rw [hrest] at h ⊢
  simp [runUntil, h]

theorem lexDelimited_adds {opening : Nat} {closing : List Char} {lexeme : String → Lexeme}
    {message : String} (hgroup : ∀ body span, TokenGroup [⟨lexeme body, span⟩] []) :
    (lexDelimited opening closing lexeme message k).Adds faulty := by
  unfold lexDelimited
  dsimp only
  split
  · exact .of_none
  · exact .of_group (hgroup _ _)

theorem lexEndTag_adds : (lexEndTag k).Adds faulty := by
  unfold lexEndTag
  dsimp only
  split
  · exact .of_group (.endTag _ _)
  · exact .of_none

theorem lexContent_adds (name : String) : (lexContent name k).Adds faulty := by
  have hraw : ∀ decode : List Char → List Char, (∀ cs, cs ≠ [] → decode cs ≠ []) →
      (lexRawText name decode k).Adds faulty := by
    intro decode hdecode
    unfold lexRawText
    dsimp only
    split
    · exact .of_none
    · rename_i hrun
      rw [List.isEmpty_iff] at hrun
      exact .of_group (.text (ofList_ne_empty (hdecode _ hrun)) _)
  unfold lexContent
  split
  · exact hraw id fun _ h => h
  · exact hraw _ fun _ => Reference.decode_nonempty
  · exact .of_none

theorem lexAttributes_stops (k : Cursor) : (lexAttributes k).next.rest = [] ∨
    (lexAttributes k).next.startsWith ['/', '>'] = true ∨
      (lexAttributes k).next.startsWith ['>'] = true := by
  fun_induction lexAttributes k with
  | case1 k h => exact .inl h
  | case2 k c rest h hc =>
    dsimp only
    rw [Cursor.startsWith, Cursor.startsWith, h]
    rw [Bool.or_eq_true, Bool.and_eq_true, decide_eq_true_eq, decide_eq_true_eq] at hc
    rcases hc with rfl | ⟨rfl, hclose⟩
    · exact .inr (.inr rfl)
    · exact .inr (.inl (by simpa using hclose))
  | case3 k c rest h hc he ih => exact ih
  | case4 k c rest h hc he ih => exact ih

theorem lexStartTag_adds (k : Cursor) : (lexStartTag k).Adds faulty ∨
    (lexStartTag k).next.rest = [] ∧ (lexStartTag k).errors ≠ [] ∧
      ∃ name span inside entries, (lexStartTag k).tokens = ⟨.startTag name, span⟩ :: inside ∧
        AttributeRun inside entries := by
  obtain ⟨entries, hrun⟩ := lexAttributes_run (lexTagName k).next
  have hwhole : ∀ {stop : Token} {next : Cursor}, stop.endsStartTag →
      LexStep.Adds faulty (((lexTagName k).andThen (lexAttributes (lexTagName k).next)).andThen
        ⟨[stop], [], next⟩) :=
    fun hstop => .of_group (.startTag _ _ hrun hstop)
  unfold lexStartTag lexTagEnd
  dsimp only
  by_cases hvoid : (lexAttributes (lexTagName k).next).next.startsWith ['/', '>'] = true
  · rw [if_pos hvoid]
    exact .inl (hwhole (.inr rfl))
  · rw [if_neg hvoid]
    by_cases hend : (lexAttributes (lexTagName k).next).next.startsWith ['>'] = true
    · rw [if_pos hend, ← LexStep.andThen_assoc]
      exact .inl ((hwhole (.inl rfl)).andThen (lexContent_adds _))
    · rw [if_neg hend]
      refine .inr ⟨?_, ?_, _, _, _, entries, List.append_nil _, hrun⟩
      · exact (lexAttributes_stops _).resolve_right fun h => h.elim hvoid hend
      · simp [LexStep.andThen]

theorem lexItem_adds (hk : k.rest ≠ []) : (lexItem k).Adds faulty ∨
    (lexItem k).next.rest = [] ∧ (lexItem k).errors ≠ [] ∧
      ∃ name span inside entries, (lexItem k).tokens = ⟨.startTag name, span⟩ :: inside ∧
        AttributeRun inside entries := by
  unfold lexItem
  split
  · unfold lexMarkup
    split
    · refine .inl ?_
      split_ifs
      · exact lexDelimited_adds .cdata
      · exact lexDelimited_adds .comment
      · exact lexDelimited_adds .doctype
    · exact .inl lexEndTag_adds
    · exact lexStartTag_adds k
  · exact .inl (lexText_adds hk (by simpa using ‹¬opensMarkup k.rest = true›))

/-- The tokens of the text from a cursor on are a stream, faulty only if there is an error. -/
theorem lexFrom_stream (hfaulty : (lexFrom k).2 ≠ [] → faulty) :
    ∃ tags, TokenStream faulty (lexFrom k).1 tags := by
  fun_induction lexFrom k with
  | case1 k h => exact ⟨[], .finished _⟩
  | case2 k h tokens errors heq ih =>
    rw [heq] at ih
    obtain ⟨tags, hrest⟩ := ih fun he => hfaulty fun hnil => he (List.append_eq_nil_iff.mp hnil).2
    rcases (lexItem_adds h : (lexItem k).Adds faulty ∨ _) with ⟨tags', hadds⟩ |
      ⟨hend, herror, name, span, inside, entries, htokens, hrun⟩
    · exact ⟨_, hadds _ _ hrest⟩
    · -- the text ends where a start tag has no end
      rw [lexFrom, dif_pos hend, Prod.mk.injEq] at heq
      rw [htokens, ← heq.1]
      exact ⟨_, .unfinished name span _ hrun
        (hfaulty fun hnil => herror (List.append_eq_nil_iff.mp hnil).1)⟩

end Steps

end LiveMarkup
