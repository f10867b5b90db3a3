import LiveMarkup.Proofs.Placeholder.Matching
import Mathlib.Data.List.Forall2

/-!
# Restoring placeholders

A scanned text has no placeholder any more, and its markers are those that the scan wrote. In each
part of such a text the markers can be told from what is restored for them, so parts that differ
still differ when their placeholders have been put back.
-/

namespace LiveMarkup

/-- No placeholder is in the text, and each marker in it is that of one of the names. -/
def Scanned (names : List String) (cs : List Char) : Prop :=
  ∀ t, t <:+ cs → Placeholder.read? t = none ∧
    ∀ digits rest, Marker.read? t = some (digits, rest) →
      ∃ k < names.length, digits = Nat.toDigits 10 k

theorem Scanned.of_infix {names : List String} {cs part : List Char} (h : Scanned names cs)
    (hp : part <:+: cs) : Scanned names part := by
  obtain ⟨before, after, rfl⟩ := hp
  intro t ht
  have hsuffix : t ++ after <:+ before ++ part ++ after := by
    obtain ⟨u, rfl⟩ := ht
    exact ⟨before ++ u, by simp⟩
  obtain ⟨hnone, hdigits⟩ := h _ hsuffix
  refine ⟨?_, fun digits rest hr => ?_⟩
  · by_contra hsome
    obtain ⟨⟨name, rest⟩, hr⟩ := Option.ne_none_iff_exists'.mp hsome
    obtain ⟨⟨body, rfl, -, hread⟩, -⟩ := Placeholder.read?_eq_some hr
    have hmore := hread (rest ++ after)
    simp only [List.cons_append, List.append_assoc] at hnone
    rw [hmore] at hnone
    cases hnone
  · obtain ⟨rfl, hne, hall⟩ := Marker.read?_eq_some hr
    refine hdigits digits (rest ++ after) ?_
    rw [List.append_assoc]
    exact Marker.read?_spellDigits _ hne hall

/-! ### What a scan leaves -/

/-- A piece of a text and the piece that is written for it: the marker of its name. -/
inductive Rewrites (names : List String) : Piece (List Char) → Piece (List Char) → Prop where
  | plain (c : Char) : Rewrites names (.plain c) (.plain c)
  | found {name : List Char} {k : Nat} (at_k : names[k]? = some (String.ofList name)) :
      Rewrites names (.found name) (.found ('*' :: (Nat.toDigits 10 k ++ ['*', '\x7d'])))

theorem indexIn_eq (names : List String) (name : String) :
    ∃ added, (indexIn names name).2 = names ++ added ∧ (∀ n ∈ added, n = name ∧ n ∉ names) ∧
      added.Nodup ∧ (names ++ added)[(indexIn names name).1]? = some name := by
  unfold indexIn
  split
  · rename_i i hi
    obtain ⟨hlt, hat, -⟩ := List.idxOf?_eq_some_iff.mp hi
    exact ⟨[], by simp, by simp, by simp, by simp [hlt, hat]⟩
  · rename_i hnone
    rw [List.idxOf?_eq_none_iff] at hnone
    refine ⟨[name], rfl, fun n hn => ?_, by simp, by simp⟩
    rw [List.mem_singleton] at hn
    exact ⟨hn, hn ▸ hnone⟩

theorem nodup_indexIn {names : List String} (h : names.Nodup) (name : String) :
    (indexIn names name).2.Nodup := by
  obtain ⟨added, hadded, hnew, hnodup, -⟩ := indexIn_eq names name
  rw [hadded, List.nodup_append]
  exact ⟨h, hnodup, fun x hx y hy e => (hnew y hy).2 (e ▸ hx)⟩

theorem rewritePieces_found (names : List String) (name : List Char) (ps : List (Piece (List Char))) :
    rewritePieces names (.found name :: ps) =
      (Marker.spell (indexIn names (String.ofList name)).1 ++
        (rewritePieces (indexIn names (String.ofList name)).2 ps).1,
        (rewritePieces (indexIn names (String.ofList name)).2 ps).2) := rfl

/-- A scan adds names behind those known before, and each placeholder becomes the marker of its
name. -/
theorem rewritePieces_eq (names : List String) (ps : List (Piece (List Char))) :
    ∃ new bs, (rewritePieces names ps).2 = names ++ new ∧
      (rewritePieces names ps).1 = bs.flatMap Piece.chars ∧
      List.Forall₂ (Rewrites (names ++ new)) ps bs := by
  induction ps generalizing names with
  | nil => exact ⟨[], [], by simp [rewritePieces], rfl, .nil⟩
  | cons p ps ih =>
    cases p with
    | plain c =>
      obtain ⟨new, bs, hnew, hbs, hall⟩ := ih names
      exact ⟨new, .plain c :: bs, hnew, by simp [rewritePieces, hbs, Piece.chars],
        .cons (.plain c) hall⟩
    | found name =>
      obtain ⟨added, hadded, -, -, hat⟩ := indexIn_eq names (String.ofList name)
      obtain ⟨new, bs, hnew, hbs, hall⟩ := ih (names ++ added)
      rw [List.append_assoc] at hall
      have hlt := (List.getElem?_eq_some_iff.mp hat).1
      have hkept : (names ++ added ++ new)[(indexIn names (String.ofList name)).1]? =
          (names ++ added)[(indexIn names (String.ofList name)).1]? :=
        List.getElem?_append_left hlt
      rw [← hkept, List.append_assoc] at hat
      refine ⟨added ++ new, _ :: bs, ?_, ?_, .cons (.found hat) hall⟩
      · rw [rewritePieces_found, hadded, hnew, List.append_assoc]
      · rw [rewritePieces_found, hadded, hbs, List.flatMap_cons]
        rfl

structure NameList (names : List String) : Prop where
  nodup : names.Nodup
  readable : ∀ n ∈ names, ∀ more,
    Placeholder.read? ('$' :: '\x7b' :: (n.toList ++ '\x7d' :: more)) = some (n.toList, more)

theorem nodup_rewritePieces {names : List String} (h : names.Nodup)
    (ps : List (Piece (List Char))) : (rewritePieces names ps).2.Nodup := by
  induction ps generalizing names with
  | nil => exact h
  | cons p ps ih =>
    cases p with
    | plain c => exact ih h
    | found name => exact ih (nodup_indexIn h (String.ofList name))

theorem rewritePieces_nameList {names : List String} {ps : List (Piece (List Char))}
    (h : NameList names)
    (hps : ∀ name, .found name ∈ ps → ∃ t rest, Placeholder.read? t = some (name, rest)) :
    NameList (rewritePieces names ps).2 := by
  induction ps generalizing names with
  | nil => exact h
  | cons p ps ih =>
    have hrest : ∀ name, .found name ∈ ps → ∃ t rest, Placeholder.read? t = some (name, rest) :=
      fun name hmem => hps name (List.mem_cons_of_mem _ hmem)
    cases p with
    | plain c => exact ih h hrest
    | found name =>
      obtain ⟨added, hadded, hnew, -, -⟩ := indexIn_eq names (String.ofList name)
      rw [rewritePieces_found]
      refine ih ⟨nodup_indexIn h.nodup _, fun n hn more => ?_⟩ hrest
      rw [hadded] at hn
      rcases List.mem_append.mp hn with hn | hn
      · exact h.readable n hn more
      · obtain ⟨t, rest, hread⟩ := hps name List.mem_cons_self
        rw [(hnew n hn).1, String.toList_ofList]
        exact (Placeholder.read?_eq_some hread).2 more

theorem Pattern.exists_read?_of_mem_split {α : Type} {p : Pattern α} {cs : List Char} {a : α}
    (h : .found a ∈ p.split cs) : ∃ t rest, p.read? t = some (a, rest) := by
  induction cs using p.textInduction with
  | nil => simp [split_nil] at h
  | plain c cs hnone ih =>
    rw [split_cons_of_none hnone, List.mem_cons] at h
    exact ih (h.resolve_left (by simp))
  | found cs b rest hr ih =>
    rw [split_of_read? hr, List.mem_cons] at h
    rcases h with h | h
    · exact ⟨cs, rest, by rw [hr, Piece.found.inj h]⟩
    · exact ih h

theorem scan_nameList (text : String) : NameList (scan text).2 :=
  rewritePieces_nameList ⟨List.nodup_nil, by simp⟩ fun _ => Pattern.exists_read?_of_mem_split

theorem suffix_append_cases {α : Type} {t u v : List α} (h : t <:+ u ++ v) :
    t <:+ v ∨ ∃ x ∈ u, ∃ rest, t = x :: rest := by
  induction u with
  | nil => exact .inl h
  | cons x u ih =>
    rcases List.suffix_cons_iff.mp h with rfl | h
    · exact .inr ⟨x, List.mem_cons_self, _, rfl⟩
    · exact (ih h).imp_right fun ⟨y, hy, hrest⟩ => ⟨y, List.mem_cons_of_mem _ hy, hrest⟩

theorem Placeholder.read?_of_ne_dollar {c : Char} (rest : List Char) (h : c ≠ '$') :
    Placeholder.read? (c :: rest) = none := by
  unfold read?
  split
  · rename_i heq
    exact absurd (List.cons.inj heq).1 h
  · rfl

theorem Marker.read?_of_ne_dollar {c : Char} (rest : List Char) (h : c ≠ '$') :
    Marker.read? (c :: rest) = none := by
  unfold read?
  split
  · rename_i heq
    exact absurd (List.cons.inj heq).1 h
  · rfl

theorem Placeholder.read?_star (rest : List Char) :
    Placeholder.read? ('$' :: '\x7b' :: '*' :: rest) = none := by
  have hblank : ('*' :: rest).dropWhile isBlank = '*' :: rest :=
    List.dropWhile_cons_of_neg (by decide)
  have hname : readName ('*' :: rest) = ([], '*' :: rest) := by
    have hstar : staysInName '*' = false := by decide +kernel
    simp [readName, hstar]
  simp only [read?, hblank, hname]
  split
  · rename_i heq
    exact absurd (List.cons.inj heq).1 (by decide)
  · rfl

theorem isDecimalDigit_of_mem_toDigits {k : Nat} {c : Char} (h : c ∈ Nat.toDigits 10 k) :
    isDecimalDigit c = true :=
  isDecimalDigit_of_isDigit (Nat.isDigit_of_mem_toDigits (by decide) (by decide) h)

theorem Marker.spellDigits_eq (digits rest : List Char) :
    spellDigits digits ++ rest = '$' :: '\x7b' :: (('*' :: digits ++ ['*']) ++ '\x7d' :: rest) := by
  simp [spellDigits]

theorem Marker.brace_not_mem {digits : List Char} (h : ∀ c ∈ digits, isDecimalDigit c = true) :
    '\x7b' ∉ '*' :: digits ++ ['*'] := by
  have hbrace : isDecimalDigit '\x7b' = false := by decide +kernel
  simp only [List.cons_append, List.mem_cons, List.mem_append, List.not_mem_nil, or_false, not_or]
  refine ⟨by decide, fun hmem => ?_, by decide⟩
  rw [h _ hmem] at hbrace
  cases hbrace

theorem eq_plain_of_rewrites {names : List String} {m : List Char}
    {ps back : List (Piece (List Char))}
    (h : List.Forall₂ (Rewrites names) ps (m.map .plain ++ back)) :
    ∃ after, ps = m.map .plain ++ after := by
  induction m generalizing ps with
  | nil => exact ⟨ps, rfl⟩
  | cons x m ih =>
    obtain ⟨p, ps, hp, hrest, rfl⟩ := List.forall₂_cons_right_iff.mp h
    cases hp
    obtain ⟨after, rfl⟩ := ih hrest
    exact ⟨after, rfl⟩

theorem Scanned.nil (names : List String) : Scanned names [] := by
  intro t ht
  rw [List.suffix_nil] at ht
  subst ht
  exact ⟨rfl, by simp [Marker.read?]⟩

theorem Scanned.cons {names : List String} {c : Char} {cs : List Char} (h : Scanned names cs)
    (hname : Placeholder.read? (c :: cs) = none) (hmarker : Marker.read? (c :: cs) = none) :
    Scanned names (c :: cs) := by
  intro t ht
  rcases List.suffix_cons_iff.mp ht with rfl | ht
  · refine ⟨hname, fun digits rest hr => ?_⟩
    rw [hmarker] at hr
    cases hr
  · exact h t ht

theorem Scanned.marker_append {names : List String} {k : Nat} {cs : List Char}
    (h : Scanned names cs) (hk : k < names.length) :
    Scanned names (Marker.spellDigits (Nat.toDigits 10 k) ++ cs) := by
  have hdigits : ∀ c ∈ Nat.toDigits 10 k, isDecimalDigit c = true := fun c =>
    isDecimalDigit_of_mem_toDigits
  intro t ht
  rcases List.suffix_cons_iff.mp ht with rfl | ht
  · refine ⟨Placeholder.read?_star _, fun digits rest hr => ?_⟩
    have hread := Marker.read?_spellDigits cs Nat.toDigits_ne_nil hdigits
    have hsame := Option.some.inj (hr.symm.trans hread)
    exact ⟨k, hk, (Prod.mk.inj hsame).1⟩
  · rcases suffix_append_cases ht with ht | ⟨x, hx, more, rfl⟩
    · exact h t ht
    · have hdollar : x ≠ '$' := by
        rintro rfl
        have hdollar : isDecimalDigit '$' = false := by decide +kernel
        have hmem : '$' ∈ Nat.toDigits 10 k := by simpa using hx
        rw [hdigits _ hmem] at hdollar
        cases hdollar
      refine ⟨Placeholder.read?_of_ne_dollar more hdollar, fun digits rest hr => ?_⟩
      rw [Marker.read?_of_ne_dollar more hdollar] at hr
      cases hr

/-- Where a character is written for a character, nothing starts that did not start there before. -/
theorem read?_plain_of_rewrites {names : List String} {c : Char} {cs : List Char}
    {bs : List (Piece (List Char))}
    (hall : List.Forall₂ (Rewrites names) (Placeholder.pattern.split (c :: cs)) (.plain c :: bs))
    (hname : Placeholder.read? (c :: cs) = none) (hmarker : Marker.read? (c :: cs) = none) :
    Placeholder.read? (c :: bs.flatMap Piece.chars) = none ∧
      Marker.read? (c :: bs.flatMap Piece.chars) = none := by
  -- a match that starts at `c` would have been there before
  have hback : ∀ {body rest : List Char}, '\x7b' ∉ body →
      c :: bs.flatMap Piece.chars = '$' :: '\x7b' :: (body ++ '\x7d' :: rest) →
      ∃ more, c :: cs = '$' :: '\x7b' :: (body ++ '\x7d' :: more) := by
    intro body rest hbrace heq
    obtain ⟨back, hplain⟩ := eq_plain_append_of_match heq hbrace
    rw [hplain] at hall
    obtain ⟨after, hafter⟩ := eq_plain_of_rewrites hall
    obtain ⟨more, hmore, -⟩ := Pattern.split_eq_plain_append hafter
    exact ⟨more, by simpa using hmore⟩
  constructor
  · by_contra hsome
    obtain ⟨⟨name, rest⟩, hr⟩ := Option.ne_none_iff_exists'.mp hsome
    obtain ⟨⟨body, heq, hbrace, hread⟩, -⟩ := Placeholder.read?_eq_some hr
    obtain ⟨more, heq⟩ := hback hbrace heq
    rw [heq, hread] at hname
    cases hname
  · by_contra hsome
    obtain ⟨⟨digits, rest⟩, hr⟩ := Option.ne_none_iff_exists'.mp hsome
    obtain ⟨heq, hne, hdigits⟩ := Marker.read?_eq_some hr
    rw [Marker.spellDigits_eq] at heq
    obtain ⟨more, heq⟩ := hback (Marker.brace_not_mem hdigits) heq
    rw [heq, ← Marker.spellDigits_eq, Marker.read?_spellDigits _ hne hdigits] at hmarker
    cases hmarker

theorem scanned_of_rewrites {names : List String} {cs : List Char} {bs : List (Piece (List Char))}
    (hall : List.Forall₂ (Rewrites names) (Placeholder.pattern.split cs) bs)
    (hno : ∀ t, t <:+ cs → Marker.read? t = none) : Scanned names (bs.flatMap Piece.chars) := by
  induction cs using Placeholder.pattern.textInduction generalizing bs with
  | nil =>
    rw [Pattern.split_nil, List.forall₂_nil_left_iff] at hall
    subst hall
    exact .nil names
  | plain c cs hnone ih =>
    have hsplit := hall
    rw [Placeholder.split_cons_of_none hnone] at hsplit
    obtain ⟨b, bs, hb, hbs, rfl⟩ := List.forall₂_cons_left_iff.mp hsplit
    cases hb
    obtain ⟨hname, hmarker⟩ := read?_plain_of_rewrites hall hnone (hno _ (List.suffix_refl _))
    rw [List.flatMap_cons, Piece.chars, List.singleton_append]
    exact .cons (ih hbs fun t ht => hno t (ht.trans (List.suffix_cons c cs))) hname hmarker
  | found cs name rest hr ih =>
    rw [Pattern.split_of_read? hr] at hall
    obtain ⟨b, bs, hb, hbs, rfl⟩ := List.forall₂_cons_left_iff.mp hall
    cases hb with
    | @found _ k at_k =>
      have hrest : Scanned names (bs.flatMap Piece.chars) :=
        ih hbs fun t ht => hno t (ht.trans (Placeholder.suffix_of_read? hr))
      exact hrest.marker_append (List.getElem?_eq_some_iff.mp at_k).1

theorem read?_of_firstMarker? {text : String} (h : firstMarker? text = none) :
    ∀ t, t <:+ text.toList → Marker.read? t = none := by
  rw [firstMarker?, Option.map_eq_none_iff, List.head?_eq_none_iff] at h
  exact Pattern.read?_eq_none_of_occurrences h

/-- A scan of a text without markers leaves nothing but the markers that it writes. -/
theorem scanned_scan {text : String} (h : firstMarker? text = none) :
    Scanned (scan text).2 (scan text).1.toList := by
  obtain ⟨new, bs, hnew, hbs, hall⟩ :=
    rewritePieces_eq [] (Placeholder.pattern.split text.toList)
  have hnames : (scan text).2 = [] ++ new := hnew
  have htext : (scan text).1.toList = bs.flatMap Piece.chars := by
    rw [← hbs]
    exact String.toList_ofList
  rw [hnames, htext]
  exact scanned_of_rewrites hall (read?_of_firstMarker? h)

/-! ### Reading segments -/

def readPiece {β : Type} (f : Segment → List β) (g : Char → List β) : Piece (List Char) → List β
  | .plain c => g c
  | .found digits => f (.ofDigits digits)

theorem flatMap_ofPieces {β : Type} {f : Segment → List β} {g : Char → List β}
    (hf : ∀ text : String, f (.literal text) = text.toList.flatMap g) (run : List Char)
    (ps : List (Piece (List Char))) :
    (Segment.ofPieces run ps).flatMap f = run.reverse.flatMap g ++ ps.flatMap (readPiece f g) := by
  have hrun : ∀ run, (Segment.ofRun run).flatMap f = run.reverse.flatMap g := by
    intro run
    cases run with
    | nil => rfl
    | cons c run => simp [Segment.ofRun, hf]
  induction ps generalizing run with
  | nil => simpa [Segment.ofPieces] using hrun run
  | cons p ps ih =>
    cases p with
    | plain c =>
      rw [Segment.ofPieces, ih]
      simp [readPiece]
    | found digits =>
      rw [Segment.ofPieces, List.flatMap_append, List.flatMap_cons, ih, hrun]
      rfl

/-! ### Putting placeholders back -/

def restorePiece (names : List String) : Piece (List Char) → List Char
  | .plain c => [c]
  | .found digits => (restoreSegment names (.ofDigits digits)).toList

theorem readPiece_restoreSegment (names : List String) :
    readPiece (fun g => (restoreSegment names g).toList) (fun c => [c]) = restorePiece names := by
  funext p
  cases p <;> rfl

theorem toList_restore (names : List String) (text : String) :
    (restore names text).toList =
      (Marker.pattern.split text.toList).flatMap (restorePiece names) := by
  rw [restore, String.toList_join, List.flatMap_map, segments,
    flatMap_ofPieces (g := fun c => [c]) (fun literal => (List.flatMap_singleton' _).symm),
    readPiece_restoreSegment]
  rfl

theorem Pattern.split_of_occurrences {α : Type} {p : Pattern α} {cs : List Char}
    (h : p.occurrences cs = []) : p.split cs = cs.map .plain := by
  have hplain : p.split (cs ++ []) = cs.map .plain ++ p.split [] :=
    split_append_of_none fun t ht _ => by
      rw [List.append_nil]
      exact read?_eq_none_of_occurrences h t ht
  rwa [List.append_nil, split_nil, List.append_nil] at hplain

theorem ofPieces_plain_append (cs run : List Char) (ps : List (Piece (List Char))) :
    Segment.ofPieces run (cs.map .plain ++ ps) = Segment.ofPieces (cs.reverse ++ run) ps := by
  induction cs generalizing run with
  | nil => rfl
  | cons c cs ih =>
    rw [List.map_cons, List.cons_append, Segment.ofPieces, ih, List.reverse_cons, List.append_assoc,
      List.singleton_append]

theorem segments_of_not_hasMarkers {text : String} (h : hasMarkers text = false) :
    segments text = Segment.ofRun text.toList.reverse := by
  have hno : Marker.pattern.occurrences text.toList = [] := by simpa [hasMarkers] using h
  have hplain := ofPieces_plain_append text.toList [] []
  rw [List.append_nil, List.append_nil] at hplain
  rw [segments, Pattern.split_of_occurrences hno, hplain, Segment.ofPieces]

theorem restore_of_not_hasMarkers {names : List String} {text : String}
    (h : hasMarkers text = false) : restore names text = text := by
  have hno : Marker.pattern.occurrences text.toList = [] := by simpa [hasMarkers] using h
  have hchars : ∀ cs : List Char, (cs.map Piece.plain).flatMap (restorePiece names) = cs := by
    intro cs
    rw [List.flatMap_map]
    exact List.flatMap_singleton' cs
  rw [← String.toList_inj, toList_restore, Pattern.split_of_occurrences hno, hchars]

theorem naturalOfDigits?_toDigits (k : Nat) :
    naturalOfDigits? (Nat.toDigits 10 k) = if k < Nat.pow 2 64 then some k else none := by
  have hdigits : (Nat.toDigits 10 k).all Char.isDigit = true := by
    rw [List.all_eq_true]
    exact fun c hc => Nat.isDigit_of_mem_toDigits (by decide) (by decide) hc
  have hvalue : digitsValue (Nat.toDigits 10 k) = k := by
    have h := Nat.ofDigitChars_toDigits (n := k) (b := 10) (by decide) (by decide)
    exact h
  have hne : (Nat.toDigits 10 k).isEmpty = false := by simp [Nat.toDigits_ne_nil]
  simp [naturalOfDigits?, hdigits, hvalue, hne]

theorem Scanned.suffix {names : List String} {cs t : List Char} (h : Scanned names cs)
    (ht : t <:+ cs) : Scanned names t :=
  h.of_infix ht.isInfix

theorem Scanned.digits_of_mem_split {names : List String} {cs digits : List Char}
    (h : Scanned names cs) (hmem : .found digits ∈ Marker.pattern.split cs) :
    ∃ k < names.length, digits = Nat.toDigits 10 k := by
  induction cs using Marker.pattern.textInduction with
  | nil => simp [Pattern.split_nil] at hmem
  | plain c cs hnone ih =>
    rw [Marker.split_cons_of_none hnone, List.mem_cons] at hmem
    exact ih (h.suffix (List.suffix_cons c cs)) (hmem.resolve_left (by simp))
  | found cs found rest hr ih =>
    rw [Marker.split_of_read? hr, List.mem_cons] at hmem
    rcases hmem with hmem | hmem
    · rw [Piece.found.inj hmem]
      exact (h cs (List.suffix_refl _)).2 found rest hr
    · obtain ⟨rfl, -, -⟩ := Marker.read?_eq_some hr
      exact ih (h.suffix (List.suffix_append _ _)) hmem

theorem restorePiece_toDigits {names : List String} {k : Nat} {n : String} (hk : names[k]? = some n) :
    restorePiece names (.found (Nat.toDigits 10 k)) =
      if k < Nat.pow 2 64 then '$' :: '\x7b' :: (n.toList ++ ['\x7d'])
      else Marker.spellDigits (Nat.toDigits 10 k) := by
  rw [restorePiece, Segment.ofDigits, naturalOfDigits?_toDigits]
  by_cases hlt : k < Nat.pow 2 64
  · rw [if_pos hlt, if_pos hlt]
    simp [restoreSegment, hk, Placeholder.spell]
  · rw [if_neg hlt, if_neg hlt]
    simp [restoreSegment]

/-- What is restored starts like a word wherever it is not a character of its own. -/
theorem exists_chars_of_restored (names : List String) (ps : List (Piece (List Char)))
    (h : ∀ digits, .found digits ∈ ps → ∃ k < names.length, digits = Nat.toDigits 10 k) :
    ∃ bs : List (Piece (List Char)), ps.flatMap (restorePiece names) = bs.flatMap Piece.chars ∧
      ∀ (m : List Char) back, bs = m.map .plain ++ back → ∃ after, ps = m.map .plain ++ after := by
  induction ps with
  | nil =>
    refine ⟨[], rfl, fun m back heq => ⟨[], ?_⟩⟩
    have hm := (List.append_eq_nil_iff.mp heq.symm).1
    rw [hm, List.nil_append]
  | cons p ps ih =>
    obtain ⟨bs, hbs, hplain⟩ := ih fun digits hmem => h digits (List.mem_cons_of_mem _ hmem)
    cases p with
    | plain c =>
      refine ⟨.plain c :: bs, by rw [List.flatMap_cons, List.flatMap_cons, hbs]; rfl, ?_⟩
      intro m back heq
      cases m with
      | nil => exact ⟨_, rfl⟩
      | cons x m =>
        obtain ⟨hx, hrest⟩ := List.cons.inj heq
        obtain ⟨after, rfl⟩ := hplain m back hrest
        exact ⟨after, by rw [hx]; rfl⟩
    | found digits =>
      obtain ⟨k, hk, rfl⟩ := h digits List.mem_cons_self
      obtain ⟨w, hw⟩ : ∃ w, restorePiece names (.found (Nat.toDigits 10 k)) = '$' :: '\x7b' :: w := by
        rw [restorePiece_toDigits (List.getElem?_eq_getElem hk)]
        split
        · exact ⟨_, rfl⟩
        · exact ⟨_, rfl⟩
      refine ⟨.found w :: bs, by rw [List.flatMap_cons, List.flatMap_cons, hbs, hw]; rfl, ?_⟩
      intro m back heq
      cases m with
      | nil => exact ⟨_, rfl⟩
      | cons x m => cases (List.cons.inj heq).1

/-- The markers of placeholders that have been put back. -/
def respell (names : List String) (ps : List (Piece (List Char))) : List Char :=
  ps.flatMap fun
    | .plain c => [c]
    | .found name => Marker.spell (names.idxOf (String.ofList name))

theorem respell_plain_append (names : List String) (m : List Char) (ps : List (Piece (List Char))) :
    respell names (m.map .plain ++ ps) = m ++ respell names ps := by
  rw [respell, List.flatMap_append, List.flatMap_map]
  congr 1
  exact List.flatMap_singleton' m

theorem Placeholder.split_append_of_no_dollar {run : List Char} (rest : List Char) (h : '$' ∉ run) :
    Placeholder.pattern.split (run ++ rest) = run.map .plain ++ Placeholder.pattern.split rest := by
  refine Pattern.split_append_of_none fun t ht hne => ?_
  obtain ⟨x, t, rfl⟩ := List.exists_cons_of_ne_nil hne
  have hx : x ≠ '$' := fun e => h (e ▸ ht.subset List.mem_cons_self)
  exact Placeholder.read?_of_ne_dollar (t ++ rest) hx

theorem split_spellDigits_append {digits : List Char} (rest : List Char)
    (h : ∀ c ∈ digits, isDecimalDigit c = true) :
    Placeholder.pattern.split (Marker.spellDigits digits ++ rest) =
      (Marker.spellDigits digits).map .plain ++ Placeholder.pattern.split rest := by
  have hdollar : '$' ∉ '\x7b' :: '*' :: (digits ++ ['*', '\x7d']) := by
    have hno : isDecimalDigit '$' = false := by decide +kernel
    intro hmem
    have hin : '$' ∈ digits := by simpa using hmem
    rw [h _ hin] at hno
    cases hno
  have hfirst : Placeholder.read? ('$' :: ('\x7b' :: '*' :: (digits ++ ['*', '\x7d']) ++ rest)) = none :=
    Placeholder.read?_star (digits ++ ['*', '\x7d'] ++ rest)
  rw [Marker.spellDigits, List.cons_append]
  rw [Placeholder.split_cons_of_none hfirst, Placeholder.split_append_of_no_dollar rest hdollar]
  rfl

/-- A scanned text is known from what is restored for it. -/
theorem respell_split_restored {names : List String} {cs : List Char} (hn : NameList names)
    (h : Scanned names cs) :
    respell names (Placeholder.pattern.split
      ((Marker.pattern.split cs).flatMap (restorePiece names))) = cs := by
  induction cs using Marker.pattern.textInduction with
  | nil => rw [Pattern.split_nil, List.flatMap_nil, Pattern.split_nil]; rfl
  | plain c cs hnone ih =>
    have htail := h.suffix (List.suffix_cons c cs)
    obtain ⟨bs, hbs, hplain⟩ := exists_chars_of_restored names (Marker.pattern.split cs) fun _ =>
      htail.digits_of_mem_split
    have hunread : Placeholder.read? (c :: bs.flatMap Piece.chars) = none := by
      by_contra hsome
      obtain ⟨⟨name, rest⟩, hr⟩ := Option.ne_none_iff_exists'.mp hsome
      obtain ⟨⟨body, heq, hbrace, hread⟩, -⟩ := Placeholder.read?_eq_some hr
      obtain ⟨back, hback⟩ := eq_plain_append_of_match heq hbrace
      obtain ⟨hc, hback⟩ := List.cons.inj hback
      obtain ⟨after, hafter⟩ := hplain ('\x7b' :: (body ++ ['\x7d'])) back hback
      obtain ⟨more, rfl, -⟩ := Pattern.split_eq_plain_append hafter
      have hno := (h _ (List.suffix_refl _)).1
      rw [Piece.plain.inj hc, List.cons_append, List.append_assoc, List.singleton_append,
        hread] at hno
      cases hno
    have hrest := ih htail
    rw [Marker.split_cons_of_none hnone, List.flatMap_cons, restorePiece, List.singleton_append]
    rw [hbs] at hrest ⊢
    rw [Placeholder.split_cons_of_none hunread, respell, List.flatMap_cons]
    dsimp only
    rw [← respell, hrest, List.singleton_append]
  | found cs digits rest hr ih =>
    obtain ⟨k, hk, rfl⟩ := (h cs (List.suffix_refl _)).2 digits rest hr
    rw [Marker.split_of_read? hr, List.flatMap_cons,
      restorePiece_toDigits (List.getElem?_eq_getElem hk)]
    obtain ⟨hcs, -, hdigits⟩ := Marker.read?_eq_some hr
    have hrest := ih (h.suffix (hcs ▸ List.suffix_append _ _))
    split
    · have hread := hn.readable names[k] (List.getElem_mem hk)
        ((Marker.pattern.split rest).flatMap (restorePiece names))
      have hidx : names.idxOf names[k] = k := hn.nodup.idxOf_getElem k hk
      rw [List.cons_append, List.cons_append, List.append_assoc, List.singleton_append,
        Placeholder.split_of_read? hread, respell, List.flatMap_cons]
      dsimp only
      rw [← respell, hrest, String.ofList_toList, hidx, hcs]
      rfl
    · rw [split_spellDigits_append _ hdigits, respell_plain_append, hrest, hcs]

/-- Texts of a scan that differ still differ when their placeholders have been put back. -/
theorem restore_injOn {names : List String} {r₁ r₂ : String} (hn : NameList names)
    (h₁ : Scanned names r₁.toList) (h₂ : Scanned names r₂.toList)
    (h : restore names r₁ = restore names r₂) : r₁ = r₂ := by
  have hchars := congrArg String.toList h
  rw [toList_restore, toList_restore] at hchars
  rw [← String.toList_inj, ← respell_split_restored hn h₁, hchars, respell_split_restored hn h₂]

end LiveMarkup
