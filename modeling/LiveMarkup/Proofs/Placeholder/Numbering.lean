import LiveMarkup.Placeholder.Interpolation
import LiveMarkup.Proofs.Placeholder.Stemming
import Mathlib.Algebra.Ring.Nat

namespace LiveMarkup

def Piece.name? : Piece (List Char) → Option String
  | .plain _ => none
  | .found name => some (String.ofList name)

theorem placeholderNames_eq (text : String) :
    placeholderNames text = (Placeholder.pattern.split text.toList).filterMap Piece.name? := by
  rw [placeholderNames, Pattern.occurrences, List.map_filterMap]
  congr 1
  funext p
  cases p <;> rfl

/-- The names of a text's placeholders that are not in a list, each where it stands first. -/
def newNames (names : List String) (text : String) : List String :=
  ((placeholderNames text).filter (· ∉ names)).eraseDups

theorem rewritePieces_names (names : List String) (ps : List (Piece (List Char))) :
    (rewritePieces names ps).2 =
      names ++ ((ps.filterMap Piece.name?).filter (· ∉ names)).eraseDups := by
  induction ps generalizing names with
  | nil => simp [rewritePieces]
  | cons p ps ih =>
    cases p with
    | plain c => exact ih names
    | found name =>
      have hname : (Piece.found name).name? = some (String.ofList name) := rfl
      rw [rewritePieces_found]
      dsimp only
      rw [ih, List.filterMap_cons_some hname]
      by_cases hmem : String.ofList name ∈ names
      · have hsame : (indexIn names (String.ofList name)).2 = names := by
          obtain ⟨i, hi⟩ := Option.ne_none_iff_exists'.mp fun hnone =>
            List.idxOf?_eq_none_iff.mp hnone hmem
          rw [indexIn, hi]
        rw [hsame, List.filter_cons_of_neg (by simpa using hmem)]
      · have hnew : (indexIn names (String.ofList name)).2 = names ++ [String.ofList name] := by
          rw [indexIn, List.idxOf?_eq_none_iff.mpr hmem]
        have hrest : ∀ ns : List String, ns.filter (· ∉ names ++ [String.ofList name]) =
            (ns.filter (· ∉ names)).filter fun n => !n == String.ofList name := by
          intro ns
          rw [List.filter_filter]
          congr 1
          funext n
          simp [Bool.and_comm, beq_eq_decide]
        rw [hnew, List.filter_cons_of_pos (by simpa using hmem), List.eraseDups_cons, hrest,
          List.append_assoc, List.singleton_append]

theorem scanInto_names (names : List String) (text : String) :
    (scanInto names text).2 = names ++ newNames names text := by
  rw [newNames, placeholderNames_eq]
  exact rewritePieces_names names _

theorem Pattern.length_split_le {α : Type} (p : Pattern α) (cs : List Char) :
    (p.split cs).length ≤ cs.length := by
  induction cs using p.textInduction with
  | nil => simp [split_nil]
  | plain c cs hnone ih =>
    rw [split_cons_of_none hnone, List.length_cons, List.length_cons]
    omega
  | found cs a rest hr ih =>
    have hshorter := p.shorter hr
    rw [split_of_read? hr, List.length_cons]
    omega

theorem length_rewritePieces_le (names : List String) (ps : List (Piece (List Char))) :
    (rewritePieces names ps).2.length ≤ names.length + ps.length := by
  induction ps generalizing names with
  | nil => exact Nat.le_refl _
  | cons p ps ih =>
    cases p with
    | plain c => exact (ih names).trans (by simp)
    | found name =>
      have hindex : (indexIn names (String.ofList name)).2.length ≤ names.length + 1 := by
        unfold indexIn
        split <;> simp
      rw [rewritePieces_found, List.length_cons]
      refine (ih _).trans ?_
      omega

theorem length_scanInto_le (names : List String) (text : String) :
    (scanInto names text).2.length ≤ names.length + text.length := by
  refine (length_rewritePieces_le names _).trans ?_
  have hpieces := Placeholder.pattern.length_split_le text.toList
  rw [String.length_toList] at hpieces
  omega

theorem idxOf_lt_of_scanInto {names : List String} {text n : String}
    (h : n ∈ placeholderNames text) :
    (scanInto names text).2.idxOf n < (scanInto names text).2.length := by
  rw [List.idxOf_lt_length_iff, scanInto_names, newNames, List.mem_append, List.mem_eraseDups,
    List.mem_filter]
  by_cases hmem : n ∈ names
  · exact .inl hmem
  · exact .inr ⟨h, by simpa using hmem⟩

def Segment.index? : Segment → Option Nat
  | .literal _ => none
  | .marker i => some i

/-- What a segment of a scanned text stands for: the text of what its name leads to. -/
def fillSegment (data : Json) (names : List String) : Segment → String
  | .literal text => text
  | .marker i =>
    ((names[i]?.bind fun name => data.resolve? name).map Json.toText).getD unresolvedText

/-- The marker of a name is read as its place, as long as places are numbers of a machine word. -/
theorem ofDigits_markPiece {names : List String} {n : String} (hn : n ∈ names)
    (hsize : names.length ≤ 2 ^ 64) :
    Segment.ofDigits (Nat.toDigits 10 (names.idxOf n)) = .marker (names.idxOf n) := by
  have hlt : names.idxOf n < Nat.pow 2 64 :=
    (List.idxOf_lt_length_iff.mpr hn).trans_le hsize
  rw [Segment.ofDigits, naturalOfDigits?_toDigits, if_pos hlt]

theorem mem_names_of_mem_split {names : List String} {text : String} {name : List Char}
    (h : .found name ∈ Placeholder.pattern.split text.toList) :
    String.ofList name ∈ (scanInto names text).2 := by
  have hmem : String.ofList name ∈ placeholderNames text := by
    rw [placeholderNames_eq]
    exact List.mem_filterMap.mpr ⟨_, h, rfl⟩
  exact List.idxOf_lt_length_iff.mp (idxOf_lt_of_scanInto hmem)

/-- Segments of a scanned text are read piece by piece of the text that was scanned. -/
theorem flatMap_segments_scanInto {β : Type} {f : Segment → List β} {g : Char → List β}
    (hf : ∀ literal : String, f (.literal literal) = literal.toList.flatMap g)
    {names : List String} {text : String} (hn : names.Nodup) (hplain : firstMarker? text = none)
    (hsize : names.length + text.length ≤ 2 ^ 64) :
    (segments (scanInto names text).1).flatMap f =
      (Placeholder.pattern.split text.toList).flatMap fun
        | .plain c => g c
        | .found name => f (.marker ((scanInto names text).2.idxOf (String.ofList name))) := by
  have hlength := (length_scanInto_le names text).trans hsize
  rw [segments, flatMap_ofPieces hf, split_scanInto hn hplain, List.reverse_nil, List.flatMap_nil,
    List.nil_append, List.flatMap_map]
  refine List.flatMap_congr fun p hp => ?_
  cases p with
  | plain c => rfl
  | found name =>
    rw [markPiece, readPiece, ofDigits_markPiece (mem_names_of_mem_split hp) hlength]

theorem markers_scanInto {names : List String} {text : String} (hn : names.Nodup)
    (hplain : firstMarker? text = none) (hsize : names.length + text.length ≤ 2 ^ 64) :
    (segments (scanInto names text).1).filterMap Segment.index? =
      (placeholderNames text).map ((scanInto names text).2.idxOf ·) := by
  have hliteral : ∀ literal : String, (Segment.index? (.literal literal)).toList =
      literal.toList.flatMap fun _ => [] := fun literal => by simp [Segment.index?]
  rw [List.filterMap_eq_flatMap_toList, flatMap_segments_scanInto hliteral hn hplain hsize,
    placeholderNames_eq, List.map_filterMap, List.filterMap_eq_flatMap_toList]
  congr 1
  funext p
  cases p <;> rfl

theorem interpolate_eq_join {text : String} (data : Json) (hplain : firstMarker? text = none)
    (hsize : text.length ≤ 2 ^ 64) :
    interpolate text data =
      String.join ((segments (scan text).1).map (fillSegment data (scan text).2)) := by
  have hliteral : ∀ literal : String, (fillSegment data (scan text).2 (.literal literal)).toList =
      literal.toList.flatMap fun c => [c] := fun literal => (List.flatMap_singleton' _).symm
  rw [← String.toList_inj, interpolate, String.toList_ofList, String.toList_join,
    List.flatMap_map]
  unfold scan at hliteral ⊢
  rw [flatMap_segments_scanInto hliteral List.nodup_nil hplain (by simpa using hsize)]
  refine List.flatMap_congr fun p hp => ?_
  cases p with
  | plain c => rfl
  | found name =>
    have hplace : (scanInto [] text).2[(scanInto [] text).2.idxOf (String.ofList name)]? =
        some (String.ofList name) := List.getElem?_idxOf (mem_names_of_mem_split hp)
    simp only [fillPiece, fillSegment, hplace, Option.bind_some]

/-- Filling in a text agrees with filling in its scanned form, and a scan numbers the names of the
placeholders after those that it is given. No text and no list of a machine reaches the bound on
their sizes: the number of a marker is one word. -/
theorem scan_agrees (names : List String) (text : String) (data : Json)
    (hplain : firstMarker? text = none) (hnames : names.Nodup)
    (hsize : names.length + text.length ≤ 2 ^ 64) :
    interpolate text data =
        String.join ((segments (scan text).1).map (fillSegment data (scan text).2)) ∧
      (scanInto names text).2 = names ++ newNames names text ∧ (scanInto names text).2.Nodup ∧
      (segments (scanInto names text).1).filterMap Segment.index? =
        (placeholderNames text).map ((scanInto names text).2.idxOf ·) ∧
      ∀ i ∈ (segments (scanInto names text).1).filterMap Segment.index?,
        i < (scanInto names text).2.length := by
  have hmarkers := markers_scanInto hnames hplain hsize
  refine ⟨interpolate_eq_join data hplain (by omega), scanInto_names names text,
    nodup_rewritePieces hnames _, hmarkers, ?_⟩
  intro i hi
  rw [hmarkers] at hi
  obtain ⟨n, hn, rfl⟩ := List.mem_map.mp hi
  exact idxOf_lt_of_scanInto hn

/-- Literals that look like parts of markers, around placeholders of a known and of a new name. -/
theorem scan_agrees_braces :
    firstMarker? "$\x7b*$\x7bb\x7d*\x7d $\x7b a.x \x7d" = none ∧ ["a.x"].Nodup ∧
      (scanInto ["a.x"] "$\x7b*$\x7bb\x7d*\x7d $\x7b a.x \x7d").2 = ["a.x", "b"] ∧
      (segments (scanInto ["a.x"] "$\x7b*$\x7bb\x7d*\x7d $\x7b a.x \x7d").1).filterMap
        Segment.index? = [1, 0] ∧
      String.join ((segments (scan "$\x7b*$\x7bb\x7d*\x7d $\x7b a.x \x7d").1).map
        (fillSegment (.object [("b", .string "1")])
          (scan "$\x7b*$\x7bb\x7d*\x7d $\x7b a.x \x7d").2)) = "$\x7b*1*\x7d undefined" := by
  have hplain : firstMarker? "$\x7b*$\x7bb\x7d*\x7d $\x7b a.x \x7d" = none := by decide +kernel
  have hnames : ["a.x"].Nodup := by decide
  obtain ⟨hfill, hadded, -, hmarkers, -⟩ := scan_agrees ["a.x"]
    "$\x7b*$\x7bb\x7d*\x7d $\x7b a.x \x7d" (.object [("b", .string "1")]) hplain hnames
    (by decide +kernel)
  refine ⟨hplain, hnames, hadded.trans (by decide +kernel), hmarkers.trans (by decide +kernel), ?_⟩
  exact hfill.symm.trans (by decide +kernel)

end LiveMarkup
