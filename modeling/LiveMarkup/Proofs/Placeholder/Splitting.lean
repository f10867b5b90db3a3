import LiveMarkup.Proofs.Placeholder.Numbering

/-!
# Splitting at markers

The segments of a text are read off the matches of the marker pattern, each the leftmost one behind
the match before it. Every segment stands for a slice of the text, and the slices are the whole text:
a literal is read as itself and a marker as the match that it was read from.
-/

namespace LiveMarkup

namespace Marker

def IsDigits (digits : List Char) : Prop := digits ≠ [] ∧ ∀ c ∈ digits, isDecimalDigit c = true

def Starts (cs : List Char) : Prop := ∃ digits, IsDigits digits ∧ spellDigits digits <+: cs

/-- No match starts in the run, where the text goes on with `cs` behind it. -/
def Unmatched (run cs : List Char) : Prop := ∀ t, t <:+ run → t ≠ [] → ¬ Starts (t ++ cs)

/-- The run of characters is the first match in the text. -/
def IsFirst (cs marker : List Char) : Prop :=
  ∃ run digits rest, IsDigits digits ∧ marker = spellDigits digits ∧ cs = run ++ (marker ++ rest) ∧
    Unmatched run (marker ++ rest)

/-- The digits write the number, and it is one of a machine word. Digits of other scripts write none. -/
structure Writes (digits : List Char) (n : Nat) : Prop where
  ascii : ∀ c ∈ digits, c.isDigit = true
  value : Nat.ofDigitChars 10 digits 0 = n
  word : n < 2 ^ 64

theorem starts_append {digits : List Char} (h : IsDigits digits) (rest : List Char) :
    Starts (spellDigits digits ++ rest) :=
  ⟨digits, h, List.prefix_append _ _⟩

theorem IsDigits.split_append {digits : List Char} (h : IsDigits digits) (cs : List Char) :
    pattern.split (spellDigits digits ++ cs) = .found digits :: pattern.split cs :=
  split_of_read? (read?_spellDigits cs h.1 h.2)

theorem read?_eq_none_iff {cs : List Char} : read? cs = none ↔ ¬ Starts cs := by
  constructor
  · rintro hnone ⟨digits, ⟨hne, hdigits⟩, rest, rfl⟩
    rw [read?_spellDigits rest hne hdigits] at hnone
    cases hnone
  · intro hstarts
    by_contra hsome
    obtain ⟨⟨digits, rest⟩, hr⟩ := Option.ne_none_iff_exists'.mp hsome
    obtain ⟨rfl, hdigits⟩ := read?_eq_some hr
    exact hstarts (starts_append hdigits rest)

namespace Unmatched

variable {c : Char} {run cs : List Char}

theorem nil (cs : List Char) : Unmatched [] cs := fun _ ht hne => absurd (List.suffix_nil.mp ht) hne

theorem cons (h : Unmatched run cs) (hc : ¬ Starts (c :: (run ++ cs))) : Unmatched (c :: run) cs := by
  intro t ht hne
  rcases List.suffix_cons_iff.mp ht with rfl | ht
  · exact hc
  · exact h t ht hne

theorem tail (h : Unmatched (c :: run) cs) : Unmatched run cs :=
  fun t ht => h t (ht.trans (List.suffix_cons c run))

theorem split_append (h : Unmatched run cs) :
    pattern.split (run ++ cs) = run.map .plain ++ pattern.split cs :=
  Pattern.split_append_of_none fun t ht hne => read?_eq_none_iff.mpr (h t ht hne)

theorem occurrences_append (h : Unmatched run cs) :
    pattern.occurrences (run ++ cs) = pattern.occurrences cs := by
  induction run with
  | nil => rfl
  | cons c run ih =>
    have hnone : read? (c :: (run ++ cs)) = none :=
      read?_eq_none_iff.mpr (h _ (List.suffix_refl _) (List.cons_ne_nil c run))
    rw [List.cons_append, occurrences_cons_of_none hnone, ih h.tail]

end Unmatched

/-! ### The first match -/

theorem exists_first {cs digits : List Char} (h : (pattern.occurrences cs).head? = some digits) :
    IsFirst cs (spellDigits digits) := by
  induction cs using pattern.textInduction with
  | nil => simp [Pattern.occurrences_nil] at h
  | plain c cs hnone ih =>
    rw [Pattern.occurrences_cons_of_none hnone] at h
    obtain ⟨run, digits', rest, hdigits, hmarker, hcs, hrun⟩ := ih h
    refine ⟨c :: run, digits', rest, hdigits, hmarker, by rw [hcs, List.cons_append], ?_⟩
    exact hrun.cons (hcs ▸ read?_eq_none_iff.mp hnone)
  | found cs digits' rest hr ih =>
    rw [Pattern.occurrences_of_read? hr, List.head?_cons, Option.some.injEq] at h
    subst h
    obtain ⟨hcs, hdigits⟩ := read?_eq_some hr
    exact ⟨[], digits', rest, hdigits, rfl, hcs, .nil _⟩

theorem head?_occurrences_of_first {cs marker : List Char} (h : IsFirst cs marker) :
    ∃ digits, marker = spellDigits digits ∧ (pattern.occurrences cs).head? = some digits := by
  obtain ⟨run, digits, rest, ⟨hne, hdigits⟩, rfl, rfl, hrun⟩ := h
  refine ⟨digits, rfl, ?_⟩
  rw [hrun.occurrences_append, occurrences_of_read? (read?_spellDigits rest hne hdigits)]
  rfl

end Marker

theorem firstMarker?_eq_some_iff {text marker : String} :
    firstMarker? text = some marker ↔ Marker.IsFirst text.toList marker.toList := by
  rw [firstMarker?, Option.map_eq_some_iff]
  constructor
  · rintro ⟨digits, hhead, rfl⟩
    rw [String.toList_ofList]
    exact Marker.exists_first hhead
  · intro h
    obtain ⟨digits, hmarker, hhead⟩ := Marker.head?_occurrences_of_first h
    exact ⟨digits, hhead, by rw [← hmarker, String.ofList_toList]⟩

theorem hasMarkers_iff {text : String} : hasMarkers text = true ↔ ∃ m, firstMarker? text = some m := by
  unfold hasMarkers firstMarker?
  cases Marker.pattern.occurrences text.toList <;> simp

/-! ### Segments and the slices that they stand for -/

theorem naturalOfDigits?_eq_some_iff {digits : List Char} (hne : digits ≠ []) {n : Nat} :
    naturalOfDigits? digits = some n ↔ Marker.Writes digits n := by
  have hsome : digits.isEmpty = false := by simpa using hne
  rw [naturalOfDigits?, hsome, Bool.false_or]
  constructor
  · intro h
    split at h
    · cases h
    · rename_i hall
      dsimp only at h
      split at h
      · rename_i hlt
        obtain rfl := Option.some.inj h
        exact ⟨by simpa using hall, rfl, hlt⟩
      · cases h
  · rintro ⟨hascii, rfl, hlt⟩
    have hall : ¬ (!digits.all Char.isDigit) = true := by simpa using hascii
    rw [if_neg hall]
    exact if_pos hlt

namespace Segment

theorem ofDigits_of_writes {digits : List Char} {n : Nat} (h : Marker.IsDigits digits)
    (hn : Marker.Writes digits n) : ofDigits digits = .marker n := by
  rw [ofDigits, (naturalOfDigits?_eq_some_iff h.1).mpr hn]

theorem ofDigits_of_not_writes {digits : List Char} (h : Marker.IsDigits digits)
    (hn : ∀ n, ¬ Marker.Writes digits n) :
    ofDigits digits = .literal (String.ofList (Marker.spellDigits digits)) := by
  have hnone : naturalOfDigits? digits = none :=
    Option.eq_none_iff_forall_ne_some.mpr fun n hsome =>
      hn n ((naturalOfDigits?_eq_some_iff h.1).mp hsome)
  rw [ofDigits, hnone]

structure Slice where
  segment : Segment
  chars : List Char

/-- A literal is read as itself and is not empty, and a marker is read as a match with digits that
write its number. -/
def Slice.Shows : Slice → Prop
  | ⟨.literal text, chars⟩ => text ≠ "" ∧ chars = text.toList
  | ⟨.marker n, chars⟩ =>
    ∃ digits, Marker.IsDigits digits ∧ Marker.Writes digits n ∧ chars = Marker.spellDigits digits

/-- The text is sliced at the leftmost matches. A run up to the next match or the end is a literal, a
match is the marker of the number that its digits write, and one whose digits write none is a literal
of its own. -/
inductive Slices : List Char → List Slice → Prop where
  | nil : Slices [] []
  | literal {run cs : List Char} {slices : List Slice} (nonempty : run ≠ [])
      (unmatched : Marker.Unmatched run cs) (stop : cs = [] ∨ Marker.Starts cs)
      (rest : Slices cs slices) : Slices (run ++ cs) (⟨.literal (String.ofList run), run⟩ :: slices)
  | marker {digits cs : List Char} {n : Nat} {slices : List Slice} (matched : Marker.IsDigits digits)
      (writes : Marker.Writes digits n) (rest : Slices cs slices) :
      Slices (Marker.spellDigits digits ++ cs) (⟨.marker n, Marker.spellDigits digits⟩ :: slices)
  | unread {digits cs : List Char} {slices : List Slice} (matched : Marker.IsDigits digits)
      (none : ∀ n, ¬ Marker.Writes digits n) (rest : Slices cs slices) :
      Slices (Marker.spellDigits digits ++ cs)
        (⟨.literal (String.ofList (Marker.spellDigits digits)), Marker.spellDigits digits⟩ :: slices)

theorem Slices.exists_cons {c : Char} {cs : List Char} {slices : List Slice} (h : Slices cs slices)
    (hc : ¬ Marker.Starts (c :: cs)) : ∃ more, Slices (c :: cs) more := by
  have hsingle : ∀ {cs slices}, Slices cs slices → cs = [] ∨ Marker.Starts cs →
      ¬ Marker.Starts (c :: cs) → ∃ more, Slices (c :: cs) more := fun hcs hstop hc =>
    ⟨_, .literal (List.cons_ne_nil c []) ((Marker.Unmatched.nil _).cons hc) hstop hcs⟩
  cases h with
  | nil => exact hsingle .nil (.inl rfl) hc
  | literal nonempty unmatched stop rest =>
    exact ⟨_, .literal (List.cons_ne_nil c _) (unmatched.cons hc) stop rest⟩
  | marker matched writes rest =>
    exact hsingle (.marker matched writes rest) (.inr (Marker.starts_append matched _)) hc
  | unread matched none rest =>
    exact hsingle (.unread matched none rest) (.inr (Marker.starts_append matched _)) hc

theorem exists_slices (cs : List Char) : ∃ slices, Slices cs slices := by
  induction cs using Marker.pattern.textInduction with
  | nil => exact ⟨[], .nil⟩
  | plain c cs hnone ih =>
    obtain ⟨slices, hslices⟩ := ih
    exact hslices.exists_cons (Marker.read?_eq_none_iff.mp hnone)
  | found cs digits rest hr ih =>
    obtain ⟨slices, hslices⟩ := ih
    obtain ⟨rfl, hdigits⟩ := Marker.read?_eq_some hr
    by_cases hn : ∃ n, Marker.Writes digits n
    · obtain ⟨n, hn⟩ := hn
      exact ⟨_, .marker hdigits hn hslices⟩
    · exact ⟨_, .unread hdigits (not_exists.mp hn) hslices⟩

/-- The segments of a text are those of its slices, however it is sliced. -/
theorem Slices.segments_eq {cs : List Char} {slices : List Slice} (h : Slices cs slices) :
    ofPieces [] (Marker.pattern.split cs) = slices.map Slice.segment := by
  induction h with
  | nil => rw [Pattern.split_nil]; rfl
  | @literal run cs slices nonempty unmatched stop rest ih =>
    have hrun : ofRun (run.reverse ++ []) = [.literal (String.ofList run)] := by
      simp [ofRun, nonempty]
    rw [unmatched.split_append, ofPieces_plain_append, List.map_cons, ← ih]
    -- what comes behind the run closes it
    rcases stop with rfl | ⟨digits, hdigits, tail, rfl⟩
    · rw [Pattern.split_nil, ofPieces, ofPieces, hrun]
      rfl
    · rw [hdigits.split_append, ofPieces, ofPieces, hrun]
      rfl
  | @marker digits cs n slices matched writes rest ih =>
    rw [matched.split_append, ofPieces, ih, ofDigits_of_writes matched writes]
    rfl
  | @unread digits cs slices matched none rest ih =>
    rw [matched.split_append, ofPieces, ih, ofDigits_of_not_writes matched none]
    rfl

theorem Slices.flatMap_chars {cs : List Char} {slices : List Slice} (h : Slices cs slices) :
    slices.flatMap Slice.chars = cs := by
  induction h with
  | nil => rfl
  | literal nonempty unmatched stop rest ih => rw [List.flatMap_cons, ih]
  | marker matched writes rest ih => rw [List.flatMap_cons, ih]
  | unread matched none rest ih => rw [List.flatMap_cons, ih]

theorem Slice.shows_literal {run : List Char} (h : run ≠ []) :
    Slice.Shows ⟨.literal (String.ofList run), run⟩ :=
  ⟨fun hempty => h (by simpa using hempty), String.toList_ofList.symm⟩

theorem Slices.shows {cs : List Char} {slices : List Slice} (h : Slices cs slices) :
    ∀ s ∈ slices, s.Shows := by
  induction h with
  | nil => simp
  | literal nonempty unmatched stop rest ih =>
    exact List.forall_mem_cons.mpr ⟨Slice.shows_literal nonempty, ih⟩
  | marker matched writes rest ih =>
    exact List.forall_mem_cons.mpr ⟨⟨_, matched, writes, rfl⟩, ih⟩
  | unread matched none rest ih =>
    exact List.forall_mem_cons.mpr ⟨Slice.shows_literal (List.cons_ne_nil _ _), ih⟩

/-! ### Numbers in order of first occurrence -/

/-- The numbers of the markers among the segments, each once, in the order in which they occur first. -/
structure Numbered (segments : List Segment) (ns : List Nat) : Prop where
  nodup : ns.Nodup
  mem_iff : ∀ n, n ∈ ns ↔ .marker n ∈ segments
  ordered : ns.Pairwise fun m n => segments.idxOf (.marker m) < segments.idxOf (.marker n)

theorem firstOccurrences_concat (ns : List Nat) (n : Nat) :
    firstOccurrences (ns ++ [n]) =
      if n ∈ firstOccurrences ns then firstOccurrences ns else firstOccurrences ns ++ [n] := by
  simp [firstOccurrences, List.foldl_append]

namespace Numbered

variable {segments : List Segment} {ns : List Nat} {n : Nat}

theorem ordered_append (h : Numbered segments ns) (more : List Segment) :
    ns.Pairwise fun m n =>
      (segments ++ more).idxOf (.marker m) < (segments ++ more).idxOf (.marker n) := by
  refine h.ordered.imp_of_mem fun hm hn hlt => ?_
  rw [List.idxOf_append_of_mem ((h.mem_iff _).mp hm), List.idxOf_append_of_mem ((h.mem_iff _).mp hn)]
  exact hlt

theorem literal (h : Numbered segments ns) (text : String) :
    Numbered (segments ++ [.literal text]) ns :=
  ⟨h.nodup, fun m => by simp [h.mem_iff], h.ordered_append _⟩

theorem known (h : Numbered segments ns) (hn : n ∈ ns) : Numbered (segments ++ [.marker n]) ns := by
  refine ⟨h.nodup, fun m => ?_, h.ordered_append _⟩
  rw [List.mem_append, List.mem_singleton, Segment.marker.injEq, ← h.mem_iff]
  exact ⟨.inl, fun hm => hm.elim id fun heq => heq ▸ hn⟩

theorem new (h : Numbered segments ns) (hn : n ∉ ns) :
    Numbered (segments ++ [.marker n]) (ns ++ [n]) := by
  refine ⟨?_, fun m => ?_, ?_⟩
  · refine List.nodup_append.mpr ⟨h.nodup, List.pairwise_singleton _ n, fun m hm k hk heq => hn ?_⟩
    rwa [← List.mem_singleton.mp hk, ← heq]
  · simp [h.mem_iff]
  · refine List.pairwise_append.mpr ⟨h.ordered_append _, List.pairwise_singleton _ _, ?_⟩
    intro m hm k hk
    obtain rfl := List.mem_singleton.mp hk
    have hold : .marker m ∈ segments := (h.mem_iff m).mp hm
    have hnew : .marker k ∉ segments := fun hmem => hn ((h.mem_iff k).mpr hmem)
    rw [List.idxOf_append_of_mem hold, List.idxOf_append_of_notMem hnew]
    exact (List.idxOf_lt_length_iff.mpr hold).trans_le (Nat.le_add_right _ _)

end Numbered

theorem numbered_firstOccurrences (segments : List Segment) :
    Numbered segments (firstOccurrences (segments.filterMap Segment.index?)) := by
  induction segments using List.reverseRecOn with
  | nil => exact ⟨List.nodup_nil, by simp [firstOccurrences], .nil⟩
  | append_singleton segments s ih =>
    cases s with
    | literal text =>
      have hnone : [Segment.literal text].filterMap Segment.index? = [] := rfl
      rw [List.filterMap_append, hnone, List.append_nil]
      exact ih.literal text
    | marker n =>
      have hone : [Segment.marker n].filterMap Segment.index? = [n] := rfl
      rw [List.filterMap_append, hone, firstOccurrences_concat]
      split
      · rename_i hn
        exact ih.known hn
      · rename_i hn
        exact ih.new hn

end Segment

/-- The segments of a text are those of its slices at the leftmost matches, and the slices are the
whole text. The marker that is found in it is the first match, and there is one or the text has no
markers. -/
theorem segments_lossless (text : String) :
    (∃ slices, Segment.Slices text.toList slices) ∧
      (∀ slices, Segment.Slices text.toList slices →
        segments text = slices.map Segment.Slice.segment ∧
          slices.flatMap Segment.Slice.chars = text.toList ∧ ∀ s ∈ slices, s.Shows) ∧
      (∀ marker, firstMarker? text = some marker ↔ Marker.IsFirst text.toList marker.toList) ∧
      (hasMarkers text = true ↔ ∃ marker, firstMarker? text = some marker) ∧
      Segment.Numbered (segments text) (markerIndices text) := by
  refine ⟨Segment.exists_slices text.toList, fun slices h => ?_, fun _ => firstMarker?_eq_some_iff,
    hasMarkers_iff, ?_⟩
  · exact ⟨h.segments_eq, h.flatMap_chars, h.shows⟩
  · exact Segment.numbered_firstOccurrences (segments text)

/-- Matches without a number are literals between the marker in front of them and the text behind. -/
example :
    segments "é$\x7b*007*\x7d$\x7b*18446744073709551616*\x7d$\x7b*٣*\x7d$\x7b*1\x7d" =
      [.literal "é", .marker 7, .literal "$\x7b*18446744073709551616*\x7d",
        .literal "$\x7b*٣*\x7d", .literal "$\x7b*1\x7d"] := by
  decide +kernel

end LiveMarkup
