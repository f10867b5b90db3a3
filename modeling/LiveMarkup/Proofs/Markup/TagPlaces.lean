import LiveMarkup.Proofs.Markup.AttributeNames

namespace LiveMarkup

namespace Location

theorem offset_after_le (l : Location) (cs : List Char) : l.offset ≤ (l.after cs).offset := by
  induction cs generalizing l with
  | nil => exact Nat.le_refl _
  | cons c cs ih =>
    refine Nat.le_trans ?_ (ih (l.advance c))
    unfold advance
    split <;> exact Nat.le_add_right _ _

theorem offset_lt_after (l : Location) {cs : List Char} (h : cs ≠ []) :
    l.offset < (l.after cs).offset := by
  obtain ⟨c, cs, rfl⟩ := List.exists_cons_of_ne_nil h
  refine Nat.lt_of_lt_of_le ?_ (offset_after_le (l.advance c) cs)
  have hpos := c.utf8Size_pos
  unfold advance
  split <;> exact Nat.lt_add_of_pos_right hpos

end Location

namespace Cursor

/-- The cursor `k'` is some characters further on. -/
def Onward (k k' : Cursor) : Prop := ∃ n, k' = k.skip n

theorem Onward.refl (k : Cursor) : k.Onward k := ⟨0, rfl⟩

theorem onward_skip (k : Cursor) (n : Nat) : k.Onward (k.skip n) := ⟨n, rfl⟩

theorem onward_skipSpace (k : Cursor) : k.Onward k.skipSpace := ⟨_, rfl⟩

theorem skip_skip (k : Cursor) (m n : Nat) : (k.skip m).skip n = k.skip (m + n) := by
  rw [skip, skip, skip, ← Location.after_append, ← List.take_add, List.drop_drop]

theorem Onward.trans {k k' k'' : Cursor} (h : k.Onward k') (h' : k'.Onward k'') :
    k.Onward k'' := by
  obtain ⟨m, rfl⟩ := h
  obtain ⟨n, rfl⟩ := h'
  exact ⟨m + n, k.skip_skip m n⟩

theorem Onward.offset_lt {k k' : Cursor} (h : k.Onward k')
    (hlength : k'.rest.length < k.rest.length) : k.location.offset < k'.location.offset := by
  obtain ⟨n, rfl⟩ := h
  refine k.location.offset_lt_after fun hnone => ?_
  rw [length_skip] at hlength
  rcases List.take_eq_nil_iff.mp hnone with rfl | hrest
  · omega
  · rw [hrest] at hlength
    exact absurd hlength (by simp)

end Cursor

def Token.isTag (t : Token) : Bool :=
  match t.lexeme with
  | .startTag _ | .endTag _ => true
  | _ => false

/-- The message begins like those about a tag that lacks another one. -/
def lamentsTag (message : String) : Bool :=
  ["Unclosed elem".toList, "Void elements".toList, "Unexpected cl".toList].contains
    (message.toList.take 13)

theorem lamentsTag_append {start rest : String} (h : 13 ≤ start.toList.length) :
    lamentsTag (start ++ rest) = lamentsTag start := by
  rw [lamentsTag, String.toList_append, List.take_append_of_le_length h, lamentsTag]

theorem lamentsTag_error {span : Span} {start rest : String} (h : 13 ≤ start.toList.length)
    (hstart : lamentsTag start = false) :
    lamentsTag (Diagnostic.error span (start ++ rest)).message = false :=
  (lamentsTag_append h).trans hstart

structure LexStep.Marks (k : Cursor) (places : List Location) (s : LexStep) : Prop where
  next : k.Onward s.next
  tags : ((s.tokens.filter Token.isTag).map fun t => t.span.start).Sublist places
  errors : ∀ d ∈ s.errors, lamentsTag d.message = false

namespace LexStep.Marks

variable {k : Cursor} {places : List Location} {s t : LexStep}

theorem andThen (h : s.Marks k places) (h' : t.Marks s.next []) : (s.andThen t).Marks k places := by
  refine ⟨h.next.trans h'.next, ?_, fun d hd => ?_⟩
  · have hnone : t.tokens.filter Token.isTag = [] :=
      List.map_eq_nil_iff.mp (List.sublist_nil.mp h'.tags)
    simpa [LexStep.andThen, hnone] using h.tags
  · exact (List.mem_append.mp hd).elim (h.errors d) (h'.errors d)

theorem from_earlier {k' : Cursor} (h : s.Marks k' places) (hk : k.Onward k') : s.Marks k places :=
  ⟨hk.trans h.next, h.tags, h.errors⟩

theorem of_no_tokens {next : Cursor} (h : k.Onward next) : LexStep.Marks k [] ⟨[], [], next⟩ :=
  ⟨h, .refl _, by simp⟩

theorem of_error {next : Cursor} {d : Diagnostic} (h : k.Onward next)
    (hd : lamentsTag d.message = false) :
    LexStep.Marks k [] ⟨[], [d], next⟩ :=
  ⟨h, .refl _, by simpa using hd⟩

theorem of_token {next : Cursor} {t : Token} (h : k.Onward next) (ht : t.isTag = false) :
    LexStep.Marks k [] ⟨[t], [], next⟩ :=
  ⟨h, by simp [ht], by simp⟩

theorem weaken (h : s.Marks k []) (places : List Location) : s.Marks k places :=
  ⟨h.next, h.tags.trans (List.nil_sublist _), h.errors⟩

end LexStep.Marks

theorem lexText_marks (k : Cursor) : (lexText k).Marks k [] := .of_token (k.onward_skip _) rfl

theorem lexDelimited_marks {opening : Nat} {closing : List Char} {lexeme : String → Lexeme}
    {message : String} (k : Cursor) (hl : ∀ body span, Token.isTag ⟨lexeme body, span⟩ = false)
    (hm : lamentsTag message = false) :
    (lexDelimited opening closing lexeme message k).Marks k [] := by
  unfold lexDelimited
  dsimp only
  split
  · exact .of_error (k.onward_skip _) hm
  · exact .of_token ((k.onward_skip _).trans (Cursor.onward_skip _ _)) (hl _ _)

theorem lexEndTag_marks (k : Cursor) : (lexEndTag k).Marks k [k.location] := by
  have hstop : k.Onward
      ((k.skip 2).skipSpace.skip (nameRun (k.skip 2).skipSpace).length).skipSpace :=
    (((k.onward_skip 2).trans (Cursor.onward_skipSpace _)).trans (Cursor.onward_skip _ _)).trans
      (Cursor.onward_skipSpace _)
  unfold lexEndTag
  dsimp only
  split
  · exact ⟨hstop.trans (Cursor.onward_skip _ _), .refl _, by simp⟩
  · rw [String.append_assoc]
    exact LexStep.Marks.weaken (.of_error hstop
      (lamentsTag_error (by decide +kernel) (by decide +kernel))) _

theorem lexValue_marks (k : Cursor) : (lexValue k).Marks k [] := by
  have hquoted : ∀ q rest, (lexValue.quoted k q rest).Marks k [] := by
    intro q rest
    unfold lexValue.quoted
    dsimp only
    split
    · have hmessage : lamentsTag "Unterminated attribute value" = false := by decide +kernel
      exact .of_error (k.onward_skip _) hmessage
    · exact .of_token ((k.onward_skip _).trans (Cursor.onward_skip _ _)) rfl
  unfold lexValue
  split
  · exact hquoted _ _
  · exact hquoted _ _
  · exact .of_token (k.onward_skip _) rfl

theorem lexAttribute_marks (k : Cursor) : (lexAttribute k).Marks k [] := by
  have hname : LexStep.Marks k [] ⟨[⟨.attributeName (String.ofList (nameRun k)),
      k.spanTo (k.skip (nameRun k).length)⟩], [], (k.skip (nameRun k).length).skipSpace⟩ :=
    .of_token ((k.onward_skip _).trans (Cursor.onward_skipSpace _)) rfl
  unfold lexAttribute
  dsimp only
  split
  · exact hname.andThen ((lexValue_marks _).from_earlier
      ((Cursor.onward_skip _ _).trans (Cursor.onward_skipSpace _)))
  · exact hname

theorem lexStray_marks (c : Char) (k : Cursor) : (lexStray c k).Marks k [] := by
  unfold lexStray
  dsimp only
  rw [String.append_assoc]
  exact .of_error (k.onward_skip _)
    (lamentsTag_error (by decide +kernel) (by decide +kernel))

theorem lexAttributes_marks (k : Cursor) : (lexAttributes k).Marks k [] := by
  fun_induction lexAttributes k with
  | case1 k h => exact .of_no_tokens k.onward_skipSpace
  | case2 k c rest h hc => exact .of_no_tokens k.onward_skipSpace
  | case3 k c rest h hc he ih =>
    exact ((lexStray_marks c _).andThen ih).from_earlier k.onward_skipSpace
  | case4 k c rest h hc he ih =>
    exact ((lexAttribute_marks _).andThen ih).from_earlier k.onward_skipSpace

theorem lexContent_marks (name : String) (k : Cursor) : (lexContent name k).Marks k [] := by
  have hraw : ∀ decode, (lexRawText name decode k).Marks k [] := by
    intro decode
    unfold lexRawText
    dsimp only
    split
    · exact .of_no_tokens (k.onward_skip _)
    · exact .of_token (k.onward_skip _) rfl
  unfold lexContent
  split
  · exact hraw _
  · exact hraw _
  · exact .of_no_tokens (.refl k)

theorem lexTagEnd_marks (start : Cursor) (name : String) (k : Cursor) :
    (lexTagEnd start name k).Marks k [] := by
  unfold lexTagEnd
  split
  · exact .of_token (k.onward_skip _) rfl
  · split
    · have hend : LexStep.Marks k [] ⟨[⟨.startTagEnd, k.spanTo (k.skip 1)⟩], [], k.skip 1⟩ :=
        .of_token (k.onward_skip _) rfl
      exact hend.andThen (lexContent_marks name _)
    · rw [String.append_assoc]
      exact .of_error (.refl k)
        (lamentsTag_error (by decide +kernel) (by decide +kernel))

theorem lexTagName_marks (k : Cursor) : (lexTagName k).Marks k [k.location] := by
  refine ⟨k.onward_skip _, .refl _, ?_⟩
  unfold lexTagName
  dsimp only
  split
  · simp
  · rw [String.append_assoc, List.forall_mem_singleton]
    exact lamentsTag_error (by decide +kernel) (by decide +kernel)

theorem lexStartTag_marks (k : Cursor) : (lexStartTag k).Marks k [k.location] :=
  ((lexTagName_marks k).andThen (lexAttributes_marks _)).andThen (lexTagEnd_marks _ _ _)

theorem lexItem_marks (k : Cursor) : (lexItem k).Marks k [k.location] := by
  unfold lexItem
  split
  · unfold lexMarkup
    split
    · split
      · exact (lexDelimited_marks k (fun _ _ => rfl) (by decide +kernel)).weaken _
      · split
        · exact (lexDelimited_marks k (fun _ _ => rfl) (by decide +kernel)).weaken _
        · exact (lexDelimited_marks k (fun _ _ => rfl) (by decide +kernel)).weaken _
    · exact lexEndTag_marks k
    · exact lexStartTag_marks k
  · exact (lexText_marks k).weaken _

def tagOffsets (tokens : List Token) : List Nat :=
  (tokens.filter Token.isTag).map fun t => t.span.start.offset

theorem tagOffsets_lexFrom (k : Cursor) : (tagOffsets (lexFrom k).1).Pairwise (· < ·) ∧
    ∀ n ∈ tagOffsets (lexFrom k).1, k.location.offset ≤ n := by
  fun_induction lexFrom k with
  | case1 k h => exact ⟨.nil, by simp [tagOffsets, Token.isTag]⟩
  | case2 k h tokens errors heq ih =>
    rw [heq] at ih
    have hmarks := lexItem_marks k
    have hfirst : (tagOffsets (lexItem k).tokens).Sublist [k.location.offset] := by
      simpa [tagOffsets, Function.comp_def] using hmarks.tags.map Location.offset
    have hlater := hmarks.next.offset_lt (length_lexItem_lt h)
    rw [tagOffsets, List.filter_append, List.map_append]
    refine ⟨List.pairwise_append.mpr ⟨(List.pairwise_singleton _ _).sublist hfirst, ih.1, ?_⟩, ?_⟩
    · intro m hm n hn
      rw [List.mem_singleton.mp (hfirst.subset hm)]
      exact Nat.lt_of_lt_of_le hlater (ih.2 n hn)
    · intro n hn
      rcases List.mem_append.mp hn with hn | hn
      · rw [List.mem_singleton.mp (hfirst.subset hn)]
      · exact hlater.le.trans (ih.2 n hn)

theorem lamentsTag_lexFrom (k : Cursor) : ∀ d ∈ (lexFrom k).2, lamentsTag d.message = false := by
  fun_induction lexFrom k with
  | case1 k h => simp
  | case2 k h tokens errors heq ih =>
    rw [heq] at ih
    intro d hd
    exact (List.mem_append.mp hd).elim ((lexItem_marks k).errors d) (ih d)

def Item.tagSpan? : Item → Option Span
  | .opening _ _ _ span => some span
  | .closing _ span => some span
  | _ => none

theorem filterMap_tagSpan?_ofTokens (tokens : List Token) :
    ((Item.ofTokens tokens).filterMap Item.tagSpan?).map (·.start.offset) = tagOffsets tokens := by
  induction tokens with
  | nil => rfl
  | cons t tokens ih =>
    obtain ⟨lexeme, span⟩ := t
    rw [tagOffsets] at ih ⊢
    cases lexeme <;>
      simp [Item.ofTokens, Item.tagSpan?, Token.isTag, List.filter_cons, List.filterMap_cons, ih]

/-- The token of a tag, and whether the tag ends in `/>`. -/
def Item.tag? : Item → Option (Token × Bool)
  | .opening name _ selfClosing span => some (⟨.startTag name, span⟩, selfClosing)
  | .closing name span => some (⟨.endTag name, span⟩, false)
  | _ => none

/-- The tags among the tokens, in order, and whether they end in `/>`. -/
def tagTokens : List Token → List (Token × Bool)
  | [] => []
  | t :: rest =>
    match t.lexeme with
    | .startTag _ => (t, Item.isSelfClosing rest) :: tagTokens rest
    | .endTag _ => (t, false) :: tagTokens rest
    | _ => tagTokens rest

theorem filterMap_tag?_ofTokens (tokens : List Token) :
    (Item.ofTokens tokens).filterMap Item.tag? = tagTokens tokens := by
  induction tokens with
  | nil => rfl
  | cons t tokens ih =>
    obtain ⟨lexeme, span⟩ := t
    cases lexeme <;> simp [Item.ofTokens, Item.tag?, tagTokens, List.filterMap_cons, ih]

theorem tagSpan?_injective (text url : String) {p q : Nat} {i j : Item} {span : Span}
    (hp : (Item.ofTokens (lex text url).tokens)[p]? = some i)
    (hq : (Item.ofTokens (lex text url).tokens)[q]? = some j)
    (hi : i.tagSpan? = some span) (hj : j.tagSpan? = some span) : p = q := by
  have hsorted := (tagOffsets_lexFrom ⟨.start, unifyLineEnds text.toList⟩).1
  rw [← filterMap_tagSpan?_ofTokens, List.pairwise_map, List.pairwise_filterMap] at hsorted
  have hahead : ∀ {p q : Nat} {i j : Item},
      (Item.ofTokens (lex text url).tokens)[p]? = some i →
      (Item.ofTokens (lex text url).tokens)[q]? = some j →
      i.tagSpan? = some span → j.tagSpan? = some span → ¬ p < q := by
    intro p q i j hp hq hi hj hpq
    obtain ⟨hplt, rfl⟩ := List.getElem?_eq_some_iff.mp hp
    obtain ⟨hqlt, rfl⟩ := List.getElem?_eq_some_iff.mp hq
    exact Nat.lt_irrefl _ (List.pairwise_iff_getElem.mp hsorted p q hplt hqlt hpq span hi span hj)
  exact Nat.le_antisymm (Nat.le_of_not_lt (hahead hq hp hj hi))
    (Nat.le_of_not_lt (hahead hp hq hi hj))

end LiveMarkup
