import LiveMarkup.Placeholder.Scan
import Mathlib.Data.List.Infix
import Mathlib.Data.List.TakeWhile

/-!
# Matches of placeholders and markers

A placeholder and a marker both open with `$` and a brace and end at the next closing brace, with
no opening brace between them. So where texts are put together from characters and from words that
open like a placeholder, a match that starts at a character is made of characters only.
-/

namespace LiveMarkup

namespace Pattern

variable {α : Type} {p : Pattern α}

theorem read?_nil (p : Pattern α) : p.read? [] = none := by
  cases h : p.read? [] with
  | none => rfl
  | some r => exact absurd (p.shorter h) (by simp)

theorem read?_eq_none_of_occurrences {cs : List Char} (h : p.occurrences cs = []) :
    ∀ t, t <:+ cs → p.read? t = none := by
  intro t ht
  induction cs with
  | nil => rw [List.suffix_nil.mp ht, read?_nil]
  | cons c cs ih =>
    have hnone : p.read? (c :: cs) = none := by
      cases hr : p.read? (c :: cs) with
      | none => rfl
      | some r =>
        obtain ⟨a, rest⟩ := r
        rw [occurrences, split_of_read? hr] at h
        simp at h
    rcases List.suffix_cons_iff.mp ht with rfl | ht
    · exact hnone
    · refine ih ?_ ht
      rw [occurrences, split_cons_of_none hnone] at h
      simpa [occurrences] using h

theorem split_eq_plain_append {cs m : List Char} {back : List (Piece α)}
    (h : p.split cs = m.map .plain ++ back) : ∃ rest, cs = m ++ rest ∧ p.split rest = back := by
  induction m generalizing cs with
  | nil => exact ⟨cs, rfl, h⟩
  | cons x m ih =>
    cases hr : p.read? cs with
    | some r =>
      obtain ⟨a, rest⟩ := r
      rw [split_of_read? hr] at h
      simp at h
    | none =>
      cases cs with
      | nil => simp [split_nil] at h
      | cons c cs =>
        rw [split_cons_of_none hr, List.map_cons, List.cons_append] at h
        obtain ⟨hc, hrest⟩ := List.cons.inj h
        obtain ⟨rest, rfl, hback⟩ := ih hrest
        exact ⟨rest, by rw [Piece.plain.inj hc, List.cons_append], hback⟩

theorem textInduction (p : Pattern α) {motive : List Char → Prop} (nil : motive [])
    (plain : ∀ c cs, p.read? (c :: cs) = none → motive cs → motive (c :: cs))
    (found : ∀ cs a rest, p.read? cs = some (a, rest) → motive rest → motive cs)
    (cs : List Char) : motive cs := by
  induction cs using split.induct p with
  | case1 cs a rest hr ih => exact found cs a rest hr ih
  | case2 hr => exact nil
  | case3 c cs hr ih => exact plain c cs hr ih

/-- A run in which no match starts is split into its characters. -/
theorem split_append_of_none {run cs : List Char}
    (h : ∀ t, t <:+ run → t ≠ [] → p.read? (t ++ cs) = none) :
    p.split (run ++ cs) = run.map .plain ++ p.split cs := by
  induction run with
  | nil => rfl
  | cons c run ih =>
    have hnone : p.read? (c :: (run ++ cs)) = none :=
      h (c :: run) (List.suffix_refl _) (List.cons_ne_nil _ _)
    rw [List.cons_append, split_cons_of_none hnone,
      ih fun t ht => h t (ht.trans (List.suffix_cons c run)), List.map_cons, List.cons_append]

end Pattern

/-! ### What a match consists of -/

theorem isBlank_of_startsName {c : Char} (h : startsName c = true) : isBlank c = false := by
  change (((decide (65 ≤ c.toNat ∧ c.toNat ≤ 90) || (decide (97 ≤ c.toNat) &&
    decide (c.toNat ≤ 122))) || c == '_') || c == '$') = true at h
  simp only [Bool.or_eq_true, Bool.and_eq_true, decide_eq_true_eq, beq_iff_eq] at h
  rcases h with (h | rfl) | rfl
  · simp only [isBlank, Bool.or_eq_false_iff, Bool.and_eq_false_iff, decide_eq_false_iff_not,
      beq_eq_false_iff_ne]
    omega
  · decide
  · decide

namespace Placeholder

theorem exists_head_of_isName {name : List Char} (h : isName name = true) :
    ∃ c rest, name = c :: rest ∧ isBlank c = false := by
  rw [isName, Bool.or_eq_true] at h
  rcases h with h | h
  · rw [beq_iff_eq] at h
    exact ⟨'@', [], h, by decide⟩
  · cases name with
    | nil => simp [isDottedName, dotParts, isIdentifier] at h
    | cons c rest =>
      refine ⟨c, rest, rfl, isBlank_of_startsName ?_⟩
      rw [isDottedName, dotParts] at h
      split at h
      · simpa [isIdentifier] using h
      · by_cases hdot : c = '.'
        · simp [hdot, isIdentifier] at h
        · simp only [hdot, if_false, List.all_cons, isIdentifier, Bool.and_eq_true] at h
          exact h.1.1

theorem dropWhile_append_of_head {f : Char → Bool} {c : Char} {rest : List Char} (blanks : List Char)
    (hb : ∀ b ∈ blanks, f b = true) (hc : f c = false) :
    (blanks ++ c :: rest).dropWhile f = c :: rest := by
  rw [List.dropWhile_append_of_pos hb, List.dropWhile_cons_of_neg (by simp [hc])]

theorem readName_append_eq (cs : List Char) : (readName cs).1 ++ (readName cs).2 = cs := by
  unfold readName
  split
  · rfl
  · exact List.takeWhile_append_dropWhile

/-- A name that was read is the self reference, or consists of characters that a name goes on
with, and then the next character is none of these. -/
theorem readName_eq {cs name after : List Char} (h : readName cs = (name, after)) :
    name = ['@'] ∨ (∀ x ∈ name, staysInName x = true) ∧
      ∀ c rest, after = c :: rest → staysInName c = false := by
  unfold readName at h
  split at h
  · exact .inl (Prod.mk.inj h).1.symm
  · obtain ⟨rfl, rfl⟩ := Prod.mk.inj h
    refine .inr ⟨fun x => List.mem_takeWhile_imp, fun c rest hc => ?_⟩
    have hhead := List.head?_dropWhile_not staysInName cs
    rw [hc] at hhead
    simpa using hhead

theorem readName_append {name rest : List Char} {c : Char}
    (h : name = ['@'] ∨ (∀ x ∈ name, staysInName x = true) ∧ staysInName c = false)
    (hne : name ≠ []) : readName (name ++ c :: rest) = (name, c :: rest) := by
  rcases h with rfl | ⟨hall, hc⟩
  · rfl
  · obtain ⟨x, name, rfl⟩ := List.exists_cons_of_ne_nil hne
    have hself : x ≠ '@' := fun e => absurd (hall x List.mem_cons_self) (by
      rw [e]
      decide +kernel)
    unfold readName
    split
    · rename_i heq
      exact absurd (List.cons.inj heq).1 hself
    · rw [List.takeWhile_append_of_pos hall, List.dropWhile_append_of_pos hall]
      simp [hc]

theorem brace_not_mem_of_readName {name : List Char}
    (h : name = ['@'] ∨ ∀ x ∈ name, staysInName x = true) : '\x7b' ∉ name := by
  rcases h with rfl | hall
  · decide
  · exact fun hmem => absurd (hall _ hmem) (by decide +kernel)

theorem read?_of_blanks {lead name trail more : List Char} (hlead : ∀ b ∈ lead, isBlank b = true)
    (htrail : ∀ b ∈ trail, isBlank b = true) (hname : isName name = true)
    (hread : readName (name ++ (trail ++ '\x7d' :: more)) = (name, trail ++ '\x7d' :: more)) :
    read? ('$' :: '\x7b' :: (lead ++ (name ++ (trail ++ '\x7d' :: more)))) = some (name, more) := by
  obtain ⟨c, rest, hhead, hc⟩ := exists_head_of_isName hname
  have hdrop : (lead ++ (name ++ (trail ++ '\x7d' :: more))).dropWhile isBlank =
      name ++ (trail ++ '\x7d' :: more) := by
    rw [hhead]
    exact dropWhile_append_of_head lead hlead hc
  have hclose : (trail ++ '\x7d' :: more).dropWhile isBlank = '\x7d' :: more :=
    dropWhile_append_of_head trail htrail (by decide)
  simp only [read?, hdrop, hread, hclose, hname, if_true]

/-- What is read as a placeholder is a name between braces with blanks on both sides of it. -/
theorem read?_eq_some_iff {cs name rest : List Char} : read? cs = some (name, rest) ↔
    ∃ lead trail : List Char, (∀ b ∈ lead, isBlank b = true) ∧ (∀ b ∈ trail, isBlank b = true) ∧
      isName name = true ∧
      readName (name ++ (trail ++ '\x7d' :: rest)) = (name, trail ++ '\x7d' :: rest) ∧
      cs = '$' :: '\x7b' :: (lead ++ (name ++ (trail ++ '\x7d' :: rest))) := by
  constructor
  · intro h
    unfold read? at h
    split at h
    · rename_i inner
      generalize hread : readName (inner.dropWhile isBlank) = r at h
      obtain ⟨read, after⟩ := r
      dsimp only at h
      split at h
      · rename_i tail hafter
        split at h
        · rename_i hname
          obtain ⟨rfl, rfl⟩ := Prod.mk.inj (Option.some.inj h)
          have hsplit : after.takeWhile isBlank ++ '\x7d' :: tail = after := by
            rw [← hafter, List.takeWhile_append_dropWhile]
          have hinner : read ++ after = inner.dropWhile isBlank := by
            have heq := readName_append_eq (inner.dropWhile isBlank)
            rwa [hread] at heq
          refine ⟨inner.takeWhile isBlank, after.takeWhile isBlank, fun b => List.mem_takeWhile_imp,
            fun b => List.mem_takeWhile_imp, hname, ?_, ?_⟩
          · rw [hsplit, hinner, hread]
          · rw [hsplit, hinner, List.takeWhile_append_dropWhile]
        · cases h
      · cases h
    · cases h
  · rintro ⟨lead, trail, hlead, htrail, hname, hread, rfl⟩
    exact read?_of_blanks hlead htrail hname hread

theorem isName_of_read? {cs name rest : List Char} (h : read? cs = some (name, rest)) :
    isName name = true := by
  obtain ⟨_, _, -, -, hname, -⟩ := read?_eq_some_iff.mp h
  exact hname

theorem readName_congr {name trail rest : List Char} (hne : name ≠ [])
    (h : readName (name ++ (trail ++ '\x7d' :: rest)) = (name, trail ++ '\x7d' :: rest))
    (more : List Char) :
    readName (name ++ (trail ++ '\x7d' :: more)) = (name, trail ++ '\x7d' :: more) := by
  have hends := readName_eq h
  cases trail with
  | nil => exact readName_append (hends.imp_right fun h => ⟨h.1, h.2 _ _ rfl⟩) hne
  | cons b blanks => exact readName_append (hends.imp_right fun h => ⟨h.1, h.2 _ _ rfl⟩) hne

/-- What is between the braces of a placeholder has no opening brace, and whatever follows the
closing one, the same name is read, with or without the blanks. -/
theorem read?_eq_some {cs name rest : List Char} (h : read? cs = some (name, rest)) :
    (∃ body, cs = '$' :: '\x7b' :: (body ++ '\x7d' :: rest) ∧ '\x7b' ∉ body ∧
      ∀ more, read? ('$' :: '\x7b' :: (body ++ '\x7d' :: more)) = some (name, more)) ∧
    ∀ more, read? ('$' :: '\x7b' :: (name ++ '\x7d' :: more)) = some (name, more) := by
  obtain ⟨lead, trail, hlead, htrail, hname, hread, rfl⟩ := read?_eq_some_iff.mp h
  have hne : name ≠ [] := by
    obtain ⟨c, rest, hhead, -⟩ := exists_head_of_isName hname
    rw [hhead]
    exact List.cons_ne_nil _ _
  have hends := readName_eq hread
  have hno : ∀ blanks : List Char, (∀ b ∈ blanks, isBlank b = true) → '\x7b' ∉ blanks :=
    fun blanks hb hmem => absurd (hb _ hmem) (by decide)
  refine ⟨⟨lead ++ (name ++ trail), by simp, ?_, fun more => ?_⟩, fun more => ?_⟩
  · rw [List.mem_append, List.mem_append, not_or, not_or]
    exact ⟨hno _ hlead, brace_not_mem_of_readName (hends.imp_right And.left), hno _ htrail⟩
  · simpa using read?_of_blanks hlead htrail hname (readName_congr hne hread more)
  · have hclose : staysInName '\x7d' = false := by decide +kernel
    have hagain : readName (name ++ ([] ++ '\x7d' :: more)) = (name, [] ++ '\x7d' :: more) :=
      readName_append (hends.imp_right fun h => ⟨h.1, hclose⟩) hne
    have hnone : ∀ b ∈ ([] : List Char), isBlank b = true := by simp
    exact read?_of_blanks hnone hnone hname hagain

theorem suffix_of_read? {cs name rest : List Char} (h : read? cs = some (name, rest)) :
    rest <:+ cs := by
  obtain ⟨⟨body, rfl, -⟩, -⟩ := read?_eq_some h
  exact ⟨'$' :: '\x7b' :: (body ++ ['\x7d']), by simp⟩

theorem split_of_read? {cs name rest : List Char} (h : read? cs = some (name, rest)) :
    pattern.split cs = .found name :: pattern.split rest :=
  Pattern.split_of_read? h

theorem split_cons_of_none {c : Char} {rest : List Char} (h : read? (c :: rest) = none) :
    pattern.split (c :: rest) = .plain c :: pattern.split rest :=
  Pattern.split_cons_of_none h

end Placeholder

namespace Marker

theorem split_of_read? {cs digits rest : List Char} (h : read? cs = some (digits, rest)) :
    pattern.split cs = .found digits :: pattern.split rest :=
  Pattern.split_of_read? h

theorem split_cons_of_none {c : Char} {rest : List Char} (h : read? (c :: rest) = none) :
    pattern.split (c :: rest) = .plain c :: pattern.split rest :=
  Pattern.split_cons_of_none h

theorem read?_eq_some {cs digits rest : List Char} (h : read? cs = some (digits, rest)) :
    cs = spellDigits digits ++ rest ∧ digits ≠ [] ∧ ∀ c ∈ digits, isDecimalDigit c = true := by
  unfold read? at h
  split at h
  · rename_i inner
    split at h
    · rename_i d digits tail htake hdrop
      cases h
      refine ⟨?_, List.cons_ne_nil _ _, fun c hc => ?_⟩
      · rw [← List.takeWhile_append_dropWhile (p := isDecimalDigit) (l := inner), htake, hdrop]
        simp [spellDigits]
      · rw [← htake] at hc
        exact List.mem_takeWhile_imp hc
    · cases h
  · cases h

theorem read?_spellDigits {digits : List Char} (rest : List Char) (hne : digits ≠ [])
    (hd : ∀ c ∈ digits, isDecimalDigit c = true) :
    read? (spellDigits digits ++ rest) = some (digits, rest) := by
  have hstar : isDecimalDigit '*' = false := by decide +kernel
  obtain ⟨d, digits, rfl⟩ := List.exists_cons_of_ne_nil hne
  have htake : (d :: digits ++ '*' :: '\x7d' :: rest).takeWhile isDecimalDigit = d :: digits := by
    rw [List.takeWhile_append_of_pos hd]
    simp [hstar]
  have hdrop : (d :: digits ++ '*' :: '\x7d' :: rest).dropWhile isDecimalDigit =
      '*' :: '\x7d' :: rest := by
    rw [List.dropWhile_append_of_pos hd]
    simp [hstar]
  have heq : spellDigits (d :: digits) ++ rest =
      '$' :: '\x7b' :: '*' :: (d :: digits ++ '*' :: '\x7d' :: rest) := by simp [spellDigits]
  rw [heq, read?, htake, hdrop]
  rfl

end Marker

/-! ### Texts put together from characters and words -/

def Piece.chars : Piece (List Char) → List Char
  | .plain c => [c]
  | .found w => '$' :: '\x7b' :: w

theorem eq_plain_append_of_chars {bs : List (Piece (List Char))} {body rest : List Char}
    (h : bs.flatMap Piece.chars = body ++ '\x7d' :: rest) (hb : '\x7b' ∉ body) :
    ∃ back, bs = (body ++ ['\x7d']).map .plain ++ back ∧ back.flatMap Piece.chars = rest := by
  induction body generalizing bs with
  | nil =>
    cases bs with
    | nil => cases h
    | cons b bs =>
      cases b with
      | plain c =>
        obtain ⟨rfl, hrest⟩ := List.cons.inj h
        exact ⟨bs, rfl, hrest⟩
      | found w => exact absurd (List.cons.inj h).1 (by decide)
  | cons x body ih =>
    rw [List.mem_cons, not_or] at hb
    cases bs with
    | nil => cases h
    | cons b bs =>
      cases b with
      | plain c =>
        obtain ⟨rfl, hrest⟩ := List.cons.inj h
        obtain ⟨back, rfl, hback⟩ := ih hrest hb.2
        exact ⟨back, rfl, hback⟩
      | found w =>
        -- the word would put its opening brace into the body or where the closing one is
        obtain ⟨-, hrest⟩ := List.cons.inj h
        cases body with
        | nil => exact absurd (List.cons.inj hrest).1 (by decide)
        | cons y body =>
          obtain ⟨rfl, -⟩ := List.cons.inj hrest
          simp at hb

theorem eq_plain_append_of_match {bs : List (Piece (List Char))} {c : Char} {body rest : List Char}
    (h : c :: bs.flatMap Piece.chars = '$' :: '\x7b' :: (body ++ '\x7d' :: rest))
    (hb : '\x7b' ∉ body) :
    ∃ back, .plain c :: bs = ('$' :: '\x7b' :: (body ++ ['\x7d'])).map .plain ++ back := by
  obtain ⟨rfl, hrest⟩ := List.cons.inj h
  clear h
  cases bs with
  | nil => cases hrest
  | cons b bs =>
    cases b with
    | plain c =>
      obtain ⟨rfl, hbody⟩ := List.cons.inj hrest
      obtain ⟨back, rfl, -⟩ := eq_plain_append_of_chars hbody hb
      exact ⟨back, rfl⟩
    | found w => exact absurd (List.cons.inj hrest).1 (by decide)

end LiveMarkup
