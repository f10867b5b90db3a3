import LiveMarkup.Markup.Lexer
import LiveMarkup.Markup.Writer
import Mathlib.Data.List.Infix
import Mathlib.Data.List.TakeWhile

namespace LiveMarkup

theorem runUntil_append {stop : List Char → Bool} {run rest : List Char}
    (inside : ∀ s, s ≠ [] → s <:+ run → stop (s ++ rest) = false)
    (last : rest = [] ∨ stop rest = true) : runUntil stop (run ++ rest) = run := by
  induction run with
  | nil =>
    cases rest with
    | nil => rfl
    | cons c rest =>
      have hstop := last.resolve_left (by simp)
      rw [List.nil_append, runUntil, if_pos hstop]
  | cons c run ih =>
    have hgo : stop (c :: (run ++ rest)) = false := inside (c :: run) (by simp) (List.suffix_refl _)
    rw [List.cons_append, runUntil, hgo, if_neg (by simp),
      ih fun s hs hsuffix => inside s hs (hsuffix.trans (List.suffix_cons _ _))]

theorem exists_runUntil (stop : List Char → Bool) (cs : List Char) :
    ∃ rest, cs = runUntil stop cs ++ rest ∧ (rest = [] ∨ stop rest = true) ∧
      ∀ s, s ≠ [] → s <:+ runUntil stop cs → stop (s ++ rest) = false := by
  induction cs with
  | nil =>
    refine ⟨[], rfl, .inl rfl, fun s hs hsuffix => absurd ?_ hs⟩
    simpa [runUntil] using hsuffix
  | cons c cs ih =>
    rw [runUntil]
    by_cases hc : stop (c :: cs) = true
    · rw [if_pos hc]
      exact ⟨c :: cs, rfl, .inr hc, fun s hs hsuffix => absurd (List.suffix_nil.mp hsuffix) hs⟩
    · rw [if_neg hc]
      obtain ⟨rest, hcs, hlast, hinside⟩ := ih
      refine ⟨rest, by rw [List.cons_append, ← hcs], hlast, fun s hs hsuffix => ?_⟩
      rcases List.suffix_cons_iff.mp hsuffix with rfl | hsuffix
      · rw [List.cons_append, ← hcs]
        simpa using hc
      · exact hinside s hs hsuffix

namespace Reference

theorem decode_nil : decode [] = [] := by rw [decode, Pattern.split_nil, List.map_nil]

theorem decode_cons_of_none {c : Char} {cs : List Char} (h : read? (c :: cs) = none) :
    decode (c :: cs) = c :: decode cs := by
  rw [decode, Pattern.split_cons_of_none (p := pattern) h, List.map_cons]
  rfl

theorem decode_cons_of_ne {c : Char} (h : c ≠ '&') (cs : List Char) :
    decode (c :: cs) = c :: decode cs := by
  refine decode_cons_of_none ?_
  unfold read?
  split
  · rename_i heq
    exact absurd (List.cons.inj heq).1 h
  · rfl

theorem decode_of_read? {cs rest : List Char} {c : Char} (h : read? cs = some (c, rest)) :
    decode cs = c :: decode rest := by
  rw [decode, Pattern.split_of_read? (p := pattern) h, List.map_cons]
  rfl

/-- Decoding goes on behind a reference, or behind a character where there is none. -/
@[elab_as_elim]
theorem decode_induction {motive : List Char → Prop} (nil : motive [])
    (reference : ∀ cs c rest, read? cs = some (c, rest) → motive rest → motive cs)
    (char : ∀ c cs, read? (c :: cs) = none → motive cs → motive (c :: cs)) (cs : List Char) :
    motive cs := by
  induction hn : cs.length using Nat.strong_induction_on generalizing cs with
  | _ n ih =>
    subst hn
    cases hr : read? cs with
    | some r => exact reference cs r.1 r.2 hr (ih _ (length_lt_of_read? hr) _ rfl)
    | none =>
      cases cs with
      | nil => exact nil
      | cons c cs => exact char c cs hr (ih _ (Nat.lt_succ_self _) _ rfl)

theorem decode_amp (cs : List Char) : decode ("&amp;".toList ++ cs) = '&' :: decode cs :=
  decode_of_read? rfl

theorem decode_lt (cs : List Char) : decode ("&lt;".toList ++ cs) = '<' :: decode cs :=
  decode_of_read? rfl

theorem decode_gt (cs : List Char) : decode ("&gt;".toList ++ cs) = '>' :: decode cs :=
  decode_of_read? rfl

theorem decode_quot (cs : List Char) : decode ("&quot;".toList ++ cs) = '"' :: decode cs :=
  decode_of_read? rfl

/-- A text of which each character is written so that it reads back is read back. -/
theorem decode_flatMap {f : Char → List Char}
    (h : ∀ c cs, decode (f c ++ cs) = c :: decode cs) (cs : List Char) :
    decode (cs.flatMap f) = cs := by
  induction cs with
  | nil => exact decode_nil
  | cons c cs ih => rw [List.flatMap_cons, h, ih]

theorem decode_nonempty {cs : List Char} (h : cs ≠ []) : decode cs ≠ [] := by
  obtain ⟨c, cs, rfl⟩ := List.exists_cons_of_ne_nil h
  cases hr : read? (c :: cs) with
  | some r =>
    obtain ⟨d, rest⟩ := r
    rw [decode_of_read? hr]
    simp
  | none =>
    rw [decode_cons_of_none hr]
    simp

end Reference

theorem decode_escapeTextChar (c : Char) (cs : List Char) :
    Reference.decode (escapeTextChar c ++ cs) = c :: Reference.decode cs := by
  unfold escapeTextChar
  split_ifs with hamp hlt hgt
  · rw [hamp, Reference.decode_amp]
  · rw [hlt, Reference.decode_lt]
  · rw [hgt, Reference.decode_gt]
  · exact Reference.decode_cons_of_ne hamp cs

theorem decode_escapeAttributeChar (c : Char) (cs : List Char) :
    Reference.decode (escapeAttributeChar c ++ cs) = c :: Reference.decode cs := by
  unfold escapeAttributeChar
  split_ifs with hamp hquote
  · rw [hamp, Reference.decode_amp]
  · rw [hquote, Reference.decode_quot]
  · exact Reference.decode_cons_of_ne hamp cs

theorem decode_escapeText (s : String) :
    String.ofList (Reference.decode (escapeText s).toList) = s := by
  rw [escapeText, String.toList_ofList, Reference.decode_flatMap decode_escapeTextChar,
    String.ofList_toList]

theorem decode_escapeAttribute (s : String) :
    String.ofList (Reference.decode (escapeAttribute s).toList) = s := by
  rw [escapeAttribute, String.toList_ofList, Reference.decode_flatMap decode_escapeAttributeChar,
    String.ofList_toList]

theorem escapeText_append (s t : String) : escapeText (s ++ t) = escapeText s ++ escapeText t := by
  rw [escapeText, escapeText, escapeText, String.toList_append, List.flatMap_append,
    String.ofList_append]

theorem escapeText_empty : escapeText "" = "" := rfl

theorem lt_not_mem_escapeText (s : String) : '<' ∉ (escapeText s).toList := by
  rw [escapeText, String.toList_ofList, List.mem_flatMap]
  rintro ⟨c, -, hc⟩
  unfold escapeTextChar at hc
  split_ifs at hc with hamp hlt hgt
  · exact absurd hc (by decide)
  · exact absurd hc (by decide)
  · exact absurd hc (by decide)
  · exact hlt (List.mem_singleton.mp hc).symm

theorem quote_not_mem_escapeAttribute (s : String) : '"' ∉ (escapeAttribute s).toList := by
  rw [escapeAttribute, String.toList_ofList, List.mem_flatMap]
  rintro ⟨c, -, hc⟩
  unfold escapeAttributeChar at hc
  split_ifs at hc with hamp hquote
  · exact absurd hc (by decide)
  · exact absurd hc (by decide)
  · exact hquote (List.mem_singleton.mp hc).symm

theorem return_not_mem_escapeText {s : String} (h : '\r' ∉ s.toList) :
    '\r' ∉ (escapeText s).toList := by
  rw [escapeText, String.toList_ofList, List.mem_flatMap]
  rintro ⟨c, hmem, hc⟩
  unfold escapeTextChar at hc
  split_ifs at hc
  · exact absurd hc (by decide)
  · exact absurd hc (by decide)
  · exact absurd hc (by decide)
  · exact h (List.mem_singleton.mp hc ▸ hmem)

theorem return_not_mem_escapeAttribute {s : String} (h : '\r' ∉ s.toList) :
    '\r' ∉ (escapeAttribute s).toList := by
  rw [escapeAttribute, String.toList_ofList, List.mem_flatMap]
  rintro ⟨c, hmem, hc⟩
  unfold escapeAttributeChar at hc
  split_ifs at hc
  · exact absurd hc (by decide)
  · exact absurd hc (by decide)
  · exact h (List.mem_singleton.mp hc ▸ hmem)

theorem escapeText_nonempty {s : String} (h : s ≠ "") : (escapeText s).toList ≠ [] := by
  obtain ⟨c, cs, hs⟩ := List.exists_cons_of_ne_nil fun he => h (String.toList_eq_nil_iff.mp he)
  rw [escapeText, String.toList_ofList, hs, List.flatMap_cons]
  unfold escapeTextChar
  split_ifs <;> simp

theorem runUntil_of_lt_not_mem {stop : List Char → Bool} {run rest : List Char}
    (opening : ∀ c cs, c ≠ '<' → stop (c :: cs) = false) (h : '<' ∉ run)
    (last : rest = [] ∨ stop rest = true) : runUntil stop (run ++ rest) = run := by
  refine runUntil_append (fun s hs hsuffix => ?_) last
  obtain ⟨c, s, rfl⟩ := List.exists_cons_of_ne_nil hs
  refine opening c _ ?_
  rintro rfl
  exact h (hsuffix.subset List.mem_cons_self)

end LiveMarkup
