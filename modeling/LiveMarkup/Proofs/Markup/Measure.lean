import LiveMarkup.Proofs.Markup.Lexing
import Mathlib.Algebra.Ring.Nat

namespace LiveMarkup

/-- What is counted in two parts of a text is counted in the text. -/
def Superadditive (μ : List Char → Nat) : Prop := ∀ a b, μ a + μ b ≤ μ (a ++ b)

def weight (μ : List Char → Nat) (data : List String) : Nat := (data.map fun s => μ s.toList).sum

/-- No part of the text has more of it when its references are decoded. -/
def DecodesWithin (μ : List Char → Nat) (cs : List Char) : Prop :=
  ∀ run, run <:+: cs → μ (Reference.decode run) ≤ μ run

variable {μ : List Char → Nat}

namespace Superadditive

theorem nil (h : Superadditive μ) : μ [] = 0 := by
  have htwice := h [] []
  rw [List.append_nil] at htwice
  omega

theorem le_of_infix (h : Superadditive μ) {a cs : List Char} (ha : a <:+: cs) : μ a ≤ μ cs := by
  obtain ⟨before, after, rfl⟩ := ha
  have hleft := h before a
  have hboth := h (before ++ a) after
  omega

theorem run_add_le (h : Superadditive μ) {before run after rest cs : List Char}
    (hcs : cs = before ++ (run ++ after)) (hrest : rest <:+ after) : μ run + μ rest ≤ μ cs := by
  subst hcs
  have hafter := h.le_of_infix hrest.isInfix
  have hrun := h run after
  have hall := h before (run ++ after)
  omega

end Superadditive

@[simp] theorem weight_nil : weight μ [] = 0 := rfl

@[simp] theorem weight_cons (s : String) (data : List String) :
    weight μ (s :: data) = μ s.toList + weight μ data := by
  rw [weight, List.map_cons, List.sum_cons, weight]

@[simp] theorem weight_append (data data' : List String) :
    weight μ (data ++ data') = weight μ data + weight μ data' := by
  rw [weight, List.map_append, List.sum_append, weight, weight]

theorem weight_perm {data data' : List String} (h : data.Perm data') :
    weight μ data = weight μ data' :=
  (h.map _).sum_nat

theorem weight_le_of_sublist {data data' : List String} (h : data.Sublist data') :
    weight μ data ≤ weight μ data' := by
  obtain ⟨more, hperm⟩ := h.exists_perm_append
  rw [weight_perm hperm, weight_append]
  exact Nat.le_add_right _ _

theorem DecodesWithin.mono {cs more : List Char} (h : DecodesWithin μ more) (hs : cs <:+ more) :
    DecodesWithin μ cs := fun run hrun => h run (hrun.trans hs.isInfix)

def Token.data (t : Token) : List String :=
  match t.lexeme with
  | .text value => [value]
  | .cdata value => [value]
  | .attributeValue value => [value]
  | _ => []

/-- The tokens of the step and the text that is left have no more than the text. -/
def LexStep.Bounded (μ : List Char → Nat) (cs : List Char) (s : LexStep) : Prop :=
  weight μ (s.tokens.flatMap Token.data) + μ s.next.rest ≤ μ cs

namespace LexStep.Bounded

variable {cs : List Char} {s t : LexStep}

theorem mono (hμ : Superadditive μ) {more : List Char} (h : s.Bounded μ cs) (hs : cs <:+ more) :
    s.Bounded μ more :=
  Nat.le_trans h (hμ.le_of_infix hs.isInfix)

theorem andThen (h : s.Bounded μ cs) (h' : t.Bounded μ s.next.rest) :
    (s.andThen t).Bounded μ cs := by
  simp only [Bounded, LexStep.andThen, List.flatMap_append, weight_append] at h h' ⊢
  omega

theorem of_no_data (hμ : Superadditive μ) {tokens : List Token} {errors : List Diagnostic}
    {k : Cursor} (ht : tokens.flatMap Token.data = []) (h : k.rest <:+ cs) :
    LexStep.Bounded μ cs ⟨tokens, errors, k⟩ := by
  rw [Bounded, ht, weight_nil, Nat.zero_add]
  exact hμ.le_of_infix h.isInfix

theorem of_run (hμ : Superadditive μ) (before : List Char) {run after : List Char}
    {errors : List Diagnostic} {k : Cursor} {t : Token} (ht : weight μ t.data ≤ μ run)
    (hcs : cs = before ++ (run ++ after)) (h : k.rest <:+ after) : LexStep.Bounded μ cs ⟨[t], errors, k⟩ := by
  have hrun := hμ.run_add_le hcs h
  rw [Bounded, List.flatMap_singleton]
  dsimp only
  omega

end LexStep.Bounded

theorem weight_attributeValue_le {cs run : List Char} (h : DecodesWithin μ cs) (hrun : run <:+: cs)
    (span : Span) : weight μ (attributeValue run span).data ≤ μ run := by
  simpa [Token.data, attributeValue] using h run hrun

section Lexer

variable (hμ : Superadditive μ) {k : Cursor}
include hμ

theorem lexText_bounded (hk : DecodesWithin μ k.rest) : (lexText k).Bounded μ k.rest := by
  obtain ⟨rest, hcs, -⟩ := exists_runUntil opensMarkup k.rest
  have hrun : runUntil opensMarkup k.rest <:+: k.rest := ⟨[], rest, hcs.symm⟩
  refine .of_run hμ [] ?_ hcs ?_
  · simpa [Token.data] using hk _ hrun
  · rw [Cursor.rest_skip hcs rfl]

theorem lexDelimited_bounded {opening : Nat} {closing : List Char} {lexeme : String → Lexeme}
    {message : String}
    (hl : ∀ body span, weight μ (Token.data ⟨lexeme body, span⟩) ≤ μ body.toList) :
    (lexDelimited opening closing lexeme message k).Bounded μ k.rest := by
  obtain ⟨rest, hcs, -⟩ := exists_runUntil closing.isPrefixOf (k.rest.drop opening)
  have hwhole : k.rest = k.rest.take opening ++
      (runUntil closing.isPrefixOf (k.rest.drop opening) ++ rest) := by
    rw [← hcs, List.take_append_drop]
  have hstop : (k.skip (opening +
      (runUntil closing.isPrefixOf (k.rest.drop opening)).length)).rest = rest := by
    rw [Cursor.skip, ← List.drop_drop]
    exact (congrArg (List.drop _) hcs).trans List.drop_left
  unfold lexDelimited
  dsimp only
  split
  · exact .of_no_data hμ rfl (k.rest_skip_suffix _)
  · refine .of_run hμ _ (Nat.le_trans (hl _ _) ?_) hwhole ?_
    · rw [String.toList_ofList]
    · rw [← hstop]
      exact Cursor.rest_skip_suffix _ _

theorem lexEndTag_bounded : (lexEndTag k).Bounded μ k.rest := by
  have hrest := (lexEndTag_within k).rest
  unfold lexEndTag at hrest ⊢
  dsimp only at hrest ⊢
  split at hrest
  · rename_i hend
    rw [if_pos hend]
    exact .of_no_data hμ rfl hrest
  · rename_i hend
    rw [if_neg hend]
    exact .of_no_data hμ rfl hrest

theorem lexValue_bounded (hk : DecodesWithin μ k.rest) : (lexValue k).Bounded μ k.rest := by
  have hquoted : ∀ q rest, k.rest = q :: rest → (lexValue.quoted k q rest).Bounded μ k.rest := by
    intro q rest hcs
    have hwhole : k.rest = [q] ++ (rest.takeWhile (· != q) ++ rest.dropWhile (· != q)) := by
      rw [List.takeWhile_append_dropWhile, hcs, List.singleton_append]
    have hstop : (k.skip (1 + (rest.takeWhile (· != q)).length)).rest =
        rest.dropWhile (· != q) := by
      refine @Cursor.rest_skip k (q :: rest.takeWhile (· != q)) _ _ hwhole ?_
      rw [List.length_cons, Nat.add_comm]
    unfold lexValue.quoted
    dsimp only
    split
    · exact .of_no_data hμ rfl (k.rest_skip_suffix _)
    · refine .of_run hμ _ (weight_attributeValue_le hk ?_ _) hwhole ?_
      · exact ⟨[q], rest.dropWhile (· != q), by rw [List.append_assoc, ← hwhole]⟩
      · rw [← hstop]
        exact Cursor.rest_skip_suffix _ _
  unfold lexValue
  split
  · exact hquoted _ _ ‹_›
  · exact hquoted _ _ ‹_›
  · obtain ⟨rest, hcs, -⟩ := exists_runUntil endsUnquoted k.rest
    refine .of_run hμ [] (weight_attributeValue_le hk ⟨[], _, hcs.symm⟩ _) hcs ?_
    rw [Cursor.rest_skip hcs rfl]

theorem lexAttribute_bounded (hk : DecodesWithin μ k.rest) : (lexAttribute k).Bounded μ k.rest := by
  have hspace : (k.skip (nameRun k).length).skipSpace.rest <:+ k.rest :=
    (Cursor.rest_skipSpace_suffix _).trans (k.rest_skip_suffix _)
  have hstep : LexStep.Bounded μ k.rest ⟨[⟨.attributeName (String.ofList (nameRun k)),
      k.spanTo (k.skip (nameRun k).length)⟩], [], (k.skip (nameRun k).length).skipSpace⟩ :=
    .of_no_data hμ rfl hspace
  unfold lexAttribute
  dsimp only
  split
  · have hvalue : ((k.skip (nameRun k).length).skipSpace.skip 1).skipSpace.rest <:+
        (k.skip (nameRun k).length).skipSpace.rest :=
      (Cursor.rest_skipSpace_suffix _).trans (Cursor.rest_skip_suffix _ _)
    exact hstep.andThen ((lexValue_bounded hμ (hk.mono (hvalue.trans hspace))).mono hμ hvalue)
  · exact hstep

theorem lexAttributes_bounded (hk : DecodesWithin μ k.rest) :
    (lexAttributes k).Bounded μ k.rest := by
  fun_induction lexAttributes k with
  | case1 k h => exact .of_no_data hμ rfl k.rest_skipSpace_suffix
  | case2 k c rest h hc => exact .of_no_data hμ rfl k.rest_skipSpace_suffix
  | case3 k c rest h hc he ih =>
    have hnext : (lexStray c k.skipSpace).next.rest <:+ k.skipSpace.rest :=
      Cursor.rest_skip_suffix _ _
    have hstray : (lexStray c k.skipSpace).Bounded μ k.skipSpace.rest := .of_no_data hμ rfl hnext
    have hrest := ih (hk.mono (hnext.trans k.rest_skipSpace_suffix))
    exact (hstray.andThen hrest).mono hμ k.rest_skipSpace_suffix
  | case4 k c rest h hc he ih =>
    have hnext := (lexAttribute_within k.skipSpace).rest
    have hattribute := lexAttribute_bounded hμ (hk.mono k.rest_skipSpace_suffix)
    have hrest := ih (hk.mono (hnext.trans k.rest_skipSpace_suffix))
    exact (hattribute.andThen hrest).mono hμ k.rest_skipSpace_suffix

theorem lexContent_bounded (hk : DecodesWithin μ k.rest) (name : String) :
    (lexContent name k).Bounded μ k.rest := by
  have hraw : ∀ decode : List Char → List Char,
      (∀ run, run <:+: k.rest → μ (decode run) ≤ μ run) →
      (lexRawText name decode k).Bounded μ k.rest := by
    intro decode hdecode
    obtain ⟨rest, hcs, -⟩ := exists_runUntil (closesRaw name) k.rest
    unfold lexRawText
    dsimp only
    split
    · exact .of_no_data hμ rfl (k.rest_skip_suffix _)
    · refine .of_run hμ [] ?_ hcs ?_
      · simpa [Token.data] using hdecode _ ⟨[], rest, hcs.symm⟩
      · rw [Cursor.rest_skip hcs rfl]
  unfold lexContent
  split
  · exact hraw id fun run _ => Nat.le_refl _
  · exact hraw Reference.decode hk
  · exact .of_no_data hμ rfl (List.suffix_refl _)

theorem lexTagEnd_bounded (hk : DecodesWithin μ k.rest) (start : Cursor) (name : String) :
    (lexTagEnd start name k).Bounded μ k.rest := by
  unfold lexTagEnd
  split
  · exact .of_no_data hμ rfl (k.rest_skip_suffix _)
  · split
    · have hend : LexStep.Bounded μ k.rest ⟨[⟨.startTagEnd, k.spanTo (k.skip 1)⟩], [], k.skip 1⟩ :=
        .of_no_data hμ rfl (k.rest_skip_suffix _)
      exact hend.andThen (lexContent_bounded hμ (hk.mono (k.rest_skip_suffix 1)) name)
    · exact .of_no_data hμ rfl (List.suffix_refl _)

theorem lexStartTag_bounded (hk : DecodesWithin μ k.rest) : (lexStartTag k).Bounded μ k.rest := by
  have hname : (lexTagName k).next.rest <:+ k.rest := k.rest_skip_suffix _
  have hopen : (lexTagName k).Bounded μ k.rest := .of_no_data hμ rfl hname
  have hinside := lexAttributes_bounded hμ (hk.mono hname)
  have hend := (lexAttributes_within (lexTagName k).next).rest.trans hname
  exact (hopen.andThen hinside).andThen (lexTagEnd_bounded hμ (hk.mono hend) _ _)

theorem lexItem_bounded (hk : DecodesWithin μ k.rest) : (lexItem k).Bounded μ k.rest := by
  unfold lexItem
  split
  · unfold lexMarkup
    split
    · split
      · exact lexDelimited_bounded hμ (by simp [Token.data])
      · split
        · exact lexDelimited_bounded hμ (by simp [Token.data])
        · exact lexDelimited_bounded hμ (by simp [Token.data])
    · exact lexEndTag_bounded hμ
    · exact lexStartTag_bounded hμ hk
  · exact lexText_bounded hμ hk

theorem lexFrom_bounded (hk : DecodesWithin μ k.rest) :
    weight μ ((lexFrom k).1.flatMap Token.data) ≤ μ k.rest := by
  fun_induction lexFrom k with
  | case1 k h => exact Nat.zero_le _
  | case2 k h tokens errors heq ih =>
    have hitem := lexItem_bounded hμ hk
    have hrest := ih (hk.mono (lexItem_within k).rest)
    rw [heq] at hrest
    rw [LexStep.Bounded] at hitem
    rw [List.flatMap_append, weight_append]
    dsimp only at hrest
    omega

end Lexer

end LiveMarkup
