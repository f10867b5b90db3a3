import LiveMarkup.Proofs.Placeholder.Restoring

namespace LiveMarkup

namespace Pattern

variable {α : Type} {p : Pattern α}

theorem occurrences_nil (p : Pattern α) : p.occurrences [] = [] := by
  rw [occurrences, split_nil]
  rfl

theorem occurrences_of_read? {cs rest : List Char} {a : α} (h : p.read? cs = some (a, rest)) :
    p.occurrences cs = a :: p.occurrences rest := by
  rw [occurrences, split_of_read? h]
  rfl

theorem occurrences_cons_of_none {c : Char} {rest : List Char} (h : p.read? (c :: rest) = none) :
    p.occurrences (c :: rest) = p.occurrences rest := by
  rw [occurrences, split_cons_of_none h]
  rfl

end Pattern

namespace Marker

theorem occurrences_of_read? {cs digits rest : List Char} (h : read? cs = some (digits, rest)) :
    pattern.occurrences cs = digits :: pattern.occurrences rest :=
  Pattern.occurrences_of_read? h

theorem occurrences_cons_of_none {c : Char} {cs : List Char} (h : read? (c :: cs) = none) :
    pattern.occurrences (c :: cs) = pattern.occurrences cs :=
  Pattern.occurrences_cons_of_none h

theorem occurrences_cons_of_ne_dollar {c : Char} (h : c ≠ '$') (cs : List Char) :
    pattern.occurrences (c :: cs) = pattern.occurrences cs :=
  occurrences_cons_of_none (read?_of_ne_dollar cs h)

theorem occurrences_append_of_no_dollar {u : List Char} (h : '$' ∉ u) (v : List Char) :
    pattern.occurrences (u ++ v) = pattern.occurrences v := by
  induction u with
  | nil => rfl
  | cons c u ih =>
    rw [List.mem_cons, not_or] at h
    rw [List.cons_append, occurrences_cons_of_ne_dollar (Ne.symm h.1), ih h.2]

theorem dollar_not_mem {digits : List Char} (h : ∀ c ∈ digits, isDecimalDigit c = true) :
    '$' ∉ '\x7b' :: '*' :: (digits ++ ['*', '\x7d']) := by
  have hno : isDecimalDigit '$' = false := by decide +kernel
  intro hmem
  have hin : '$' ∈ digits := by simpa using hmem
  rw [h _ hin] at hno
  cases hno

/-- A marker that starts in one part of a text and ends in the next one is the only one there up to
its end. -/
theorem occurrences_of_seam {c : Char} {a b digits rest : List Char}
    (hnone : read? (c :: a) = none) (hread : read? (c :: (a ++ b)) = some (digits, rest)) :
    pattern.occurrences a = [] ∧ pattern.occurrences b = pattern.occurrences rest := by
  obtain ⟨heq, hne, hdigits⟩ := read?_eq_some hread
  have hdollar := dollar_not_mem hdigits
  rw [spellDigits, List.cons_append] at heq
  obtain ⟨rfl, htail⟩ := List.cons.inj heq
  rcases List.append_eq_append_iff.mp htail with ⟨t, ht, rfl⟩ | ⟨more, rfl, -⟩
  · rw [ht, List.mem_append, not_or] at hdollar
    constructor
    · rw [← List.append_nil a, occurrences_append_of_no_dollar hdollar.1, Pattern.occurrences_nil]
    · exact occurrences_append_of_no_dollar hdollar.2 rest
  · have hwhole : read? ('$' :: ('\x7b' :: '*' :: (digits ++ ['*', '\x7d']) ++ more)) =
        some (digits, more) := read?_spellDigits more hne hdigits
    rw [hwhole] at hnone
    cases hnone

theorem occurrences_append_sublist (a b : List Char) :
    (pattern.occurrences a ++ pattern.occurrences b).Sublist (pattern.occurrences (a ++ b)) := by
  induction a using pattern.textInduction with
  | nil => simp [Pattern.occurrences_nil]
  | plain c a hnone ih =>
    rw [occurrences_cons_of_none hnone]
    cases hr : read? (c :: (a ++ b)) with
    | none =>
      rw [List.cons_append, occurrences_cons_of_none hr]
      exact ih
    | some r =>
      obtain ⟨digits, rest⟩ := r
      obtain ⟨hleft, hright⟩ := occurrences_of_seam hnone hr
      rw [List.cons_append, occurrences_of_read? hr, hleft, hright]
      exact List.sublist_cons_self _ _
  | found a digits rest hr ih =>
    obtain ⟨hne, hdigits⟩ := (read?_eq_some hr).2
    have hmore : read? (a ++ b) = some (digits, rest ++ b) := by
      rw [(read?_eq_some hr).1, List.append_assoc]
      exact read?_spellDigits _ hne hdigits
    rw [occurrences_of_read? hr, occurrences_of_read? hmore]
    exact ih.cons_cons _

end Marker

def placeholderNames (text : String) : List String :=
  (Placeholder.pattern.occurrences text.toList).map String.ofList

def writtenMarkers (text : String) : List (List Char) :=
  (placeholderNames text).map fun name => Nat.toDigits 10 ((scan text).2.idxOf name)

def markPiece (names : List String) : Piece (List Char) → Piece (List Char)
  | .plain c => .plain c
  | .found name => .found (Nat.toDigits 10 (names.idxOf (String.ofList name)))

/-- A marker that was written is read again, and none is read that was not written. -/
theorem split_of_rewrites {names : List String} (hn : names.Nodup) {cs : List Char}
    {bs : List (Piece (List Char))}
    (hall : List.Forall₂ (Rewrites names) (Placeholder.pattern.split cs) bs)
    (hno : ∀ t, t <:+ cs → Marker.read? t = none) :
    Marker.pattern.split (bs.flatMap Piece.chars) =
      (Placeholder.pattern.split cs).map (markPiece names) := by
  induction cs using Placeholder.pattern.textInduction generalizing bs with
  | nil =>
    rw [Pattern.split_nil, List.forall₂_nil_left_iff] at hall
    rw [hall, List.flatMap_nil, Pattern.split_nil, Pattern.split_nil]
    rfl
  | plain c cs hnone ih =>
    have hsplit := hall
    rw [Placeholder.split_cons_of_none hnone] at hsplit
    obtain ⟨b, bs, hb, hbs, rfl⟩ := List.forall₂_cons_left_iff.mp hsplit
    cases hb
    have hmarker := (read?_plain_of_rewrites hall hnone (hno _ (List.suffix_refl _))).2
    rw [List.flatMap_cons, Piece.chars, List.singleton_append,
      Marker.split_cons_of_none hmarker, Placeholder.split_cons_of_none hnone,
      ih hbs fun t ht => hno t (ht.trans (List.suffix_cons c cs))]
    rfl
  | found cs name rest hr ih =>
    rw [Pattern.split_of_read? hr] at hall
    obtain ⟨b, bs, hb, hbs, rfl⟩ := List.forall₂_cons_left_iff.mp hall
    cases hb with
    | @found _ k at_k =>
      have hmarker : Marker.read?
          (Marker.spellDigits (Nat.toDigits 10 k) ++ bs.flatMap Piece.chars) =
            some (Nat.toDigits 10 k, bs.flatMap Piece.chars) :=
        Marker.read?_spellDigits _ Nat.toDigits_ne_nil fun c => isDecimalDigit_of_mem_toDigits
      have hk : names.idxOf (String.ofList name) = k := by
        obtain ⟨hlt, hat⟩ := List.getElem?_eq_some_iff.mp at_k
        rw [← hat, hn.idxOf_getElem k hlt]
      rw [Pattern.split_of_read? hr, List.map_cons, markPiece, hk,
        ← ih hbs fun t ht => hno t (ht.trans (Placeholder.suffix_of_read? hr))]
      exact Marker.split_of_read? hmarker

/-- The markers of a text that was scanned are the placeholders that were there, and what stands
between them has stayed. -/
theorem split_scanInto {names : List String} {text : String} (hn : names.Nodup)
    (h : firstMarker? text = none) :
    Marker.pattern.split (scanInto names text).1.toList =
      (Placeholder.pattern.split text.toList).map (markPiece (scanInto names text).2) := by
  obtain ⟨new, bs, hnew, hbs, hall⟩ :=
    rewritePieces_eq names (Placeholder.pattern.split text.toList)
  have hnames : (scanInto names text).2 = names ++ new := hnew
  have htext : (scanInto names text).1.toList = bs.flatMap Piece.chars := by
    rw [← hbs]
    exact String.toList_ofList
  have hdistinct : (names ++ new).Nodup := hnew ▸ nodup_rewritePieces hn _
  rw [hnames, htext]
  exact split_of_rewrites hdistinct hall (read?_of_firstMarker? h)

/-- The markers of a scanned text are those that were written for its placeholders. -/
theorem occurrences_scan {text : String} (h : firstMarker? text = none) :
    Marker.pattern.occurrences (scan text).1.toList = writtenMarkers text := by
  unfold writtenMarkers placeholderNames Pattern.occurrences
  rw [scan, split_scanInto List.nodup_nil h, List.map_map, List.filterMap_map, List.map_filterMap]
  congr 1
  funext p
  cases p <;> rfl

theorem mem_rewritePieces {names : List String} {ps : List (Piece (List Char))} {n : String}
    (h : n ∈ (rewritePieces names ps).2) :
    n ∈ names ∨ ∃ name, .found name ∈ ps ∧ String.ofList name = n := by
  induction ps generalizing names with
  | nil => exact .inl h
  | cons p ps ih =>
    cases p with
    | plain c =>
      refine (ih h).imp_right ?_
      rintro ⟨name, hmem, rfl⟩
      exact ⟨name, List.mem_cons_of_mem _ hmem, rfl⟩
    | found name =>
      obtain ⟨added, hadded, hnew, -, -⟩ := indexIn_eq names (String.ofList name)
      rw [rewritePieces_found, hadded] at h
      rcases ih h with h | ⟨name', hmem, rfl⟩
      · rcases List.mem_append.mp h with h | h
        · exact .inl h
        · exact .inr ⟨name, List.mem_cons_self, (hnew n h).1.symm⟩
      · exact .inr ⟨name', List.mem_cons_of_mem _ hmem, rfl⟩

theorem mem_placeholderNames_of_scan {text n : String} (h : n ∈ (scan text).2) :
    n ∈ placeholderNames text := by
  obtain ⟨name, hmem, rfl⟩ := (mem_rewritePieces h).resolve_left List.not_mem_nil
  exact List.mem_map_of_mem (List.mem_filterMap.mpr ⟨_, hmem, rfl⟩)

end LiveMarkup
