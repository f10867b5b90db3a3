import LiveMarkup.Proofs.Markup.Spans

namespace LiveMarkup

theorem byteLength_eq (cs : List Char) : byteLength cs = (String.ofList cs).utf8ByteSize := by
  induction cs with
  | nil => rfl
  | cons c cs ih =>
    rw [byteLength, ih, String.ofList_cons, String.utf8ByteSize_append,
      String.utf8ByteSize_singleton]

theorem splitBytes_of_le {n : Nat} {cs : List Char} (h : byteLength cs ≤ n) :
    splitBytes n cs = (cs, []) := by
  induction cs generalizing n with
  | nil => cases n <;> rfl
  | cons c cs ih =>
    have hpos := c.utf8Size_pos
    rw [byteLength] at h
    obtain ⟨m, rfl⟩ := Nat.exists_eq_succ_of_ne_zero (show n ≠ 0 by omega)
    have hrest : byteLength cs ≤ m + 1 - c.utf8Size := by omega
    rw [splitBytes, ih hrest]
    exact Nat.succ_ne_zero m

theorem splitBytes_of_append {content before rest : String} {n : Nat}
    (hcontent : content = before ++ rest) (hn : before.utf8ByteSize = min n content.utf8ByteSize) :
    splitBytes n content.toList = (before.toList, rest.toList) := by
  have hsize : content.utf8ByteSize = before.utf8ByteSize + rest.utf8ByteSize := by
    rw [hcontent, String.utf8ByteSize_append]
  have hbytes : byteLength before.toList = before.utf8ByteSize := by
    rw [byteLength_eq, String.ofList_toList]
  rw [hcontent, String.toList_append]
  by_cases hle : n ≤ content.utf8ByteSize
  · have hexact : n = byteLength before.toList := by
      rw [hbytes, hn, Nat.min_eq_left hle]
    rw [hexact, splitBytes_append]
  · have hend : rest.utf8ByteSize = 0 := by omega
    obtain rfl := String.utf8ByteSize_eq_zero_iff.mp hend
    have hpast : byteLength before.toList ≤ n := by omega
    rw [String.toList_empty, List.append_nil, splitBytes_of_le hpast]

structure IsLongest (P : List Char → Prop) (run : List Char) : Prop where
  holds : P run
  longest : ∀ other, P other → other.length ≤ run.length

structure FitsLimits (maxChars maxLines : Nat) (run : List Char) : Prop where
  chars : run.length ≤ maxChars
  breaks : run.count '\n' < max 1 maxLines

theorem window_isPrefix (chars breaks : Nat) (cs : List Char) : window chars breaks cs <+: cs := by
  fun_induction window chars breaks cs with
  | case1 => exact List.nil_prefix
  | case2 => exact List.nil_prefix
  | case3 => exact List.nil_prefix
  | case4 chars rest breaks ih => exact List.cons_prefix_cons.mpr ⟨rfl, ih⟩
  | case5 chars breaks c rest hc ih => exact List.cons_prefix_cons.mpr ⟨rfl, ih⟩

theorem length_window_le (chars breaks : Nat) (cs : List Char) :
    (window chars breaks cs).length ≤ chars := by
  fun_induction window chars breaks cs with
  | case1 => exact Nat.le_refl 0
  | case2 => exact Nat.zero_le _
  | case3 => exact Nat.zero_le _
  | case4 chars rest breaks ih => exact Nat.succ_le_succ ih
  | case5 chars breaks c rest hc ih => exact Nat.succ_le_succ ih

theorem count_window_le (chars breaks : Nat) (cs : List Char) :
    (window chars breaks cs).count '\n' ≤ breaks := by
  fun_induction window chars breaks cs with
  | case1 => exact Nat.zero_le _
  | case2 => exact Nat.zero_le _
  | case3 => exact Nat.le_refl 0
  | case4 chars rest breaks ih =>
    rw [List.count_cons_self]
    exact Nat.succ_le_succ ih
  | case5 chars breaks c rest hc ih => rwa [List.count_cons_of_ne hc]

theorem isPrefix_window {chars breaks : Nat} {run cs : List Char} (h : run <+: cs)
    (hchars : run.length ≤ chars) (hbreaks : run.count '\n' ≤ breaks) :
    run <+: window chars breaks cs := by
  fun_induction window chars breaks cs generalizing run with
  | case1 =>
    obtain rfl := List.eq_nil_of_length_eq_zero (Nat.le_zero.mp hchars)
    exact List.nil_prefix
  | case2 => exact h
  | case3 chars rest =>
    -- a first character would be one line break too many
    cases run with
    | nil => exact List.nil_prefix
    | cons c run =>
      obtain ⟨rfl, -⟩ := List.cons_prefix_cons.mp h
      rw [List.count_cons_self] at hbreaks
      exact absurd hbreaks (Nat.not_succ_le_zero _)
  | case4 chars rest breaks ih =>
    cases run with
    | nil => exact List.nil_prefix
    | cons c run =>
      obtain ⟨rfl, htail⟩ := List.cons_prefix_cons.mp h
      rw [List.count_cons_self] at hbreaks
      exact List.cons_prefix_cons.mpr
        ⟨rfl, ih htail (Nat.le_of_succ_le_succ hchars) (Nat.le_of_succ_le_succ hbreaks)⟩
  | case5 chars breaks c rest hc ih =>
    cases run with
    | nil => exact List.nil_prefix
    | cons d run =>
      obtain ⟨rfl, htail⟩ := List.cons_prefix_cons.mp h
      rw [List.count_cons_of_ne hc] at hbreaks
      exact List.cons_prefix_cons.mpr ⟨rfl, ih htail (Nat.le_of_succ_le_succ hchars) hbreaks⟩

theorem isLongest_window (maxChars maxLines : Nat) (cs : List Char) :
    IsLongest (fun run => run <+: cs ∧ FitsLimits maxChars maxLines run)
      (window maxChars (maxLines - 1) cs) := by
  have hbreaks := count_window_le maxChars (maxLines - 1) cs
  refine ⟨⟨window_isPrefix _ _ _, length_window_le _ _ _, by omega⟩, ?_⟩
  rintro run ⟨hstart, hchars, hlines⟩
  exact (isPrefix_window hstart hchars (by omega)).length_le

theorem isLongest_reverse_window (maxChars maxLines : Nat) (cs : List Char) :
    IsLongest (fun run => run <:+ cs ∧ FitsLimits maxChars maxLines run)
      (window maxChars (maxLines - 1) cs.reverse).reverse := by
  have hturned : ∀ run, FitsLimits maxChars maxLines run → FitsLimits maxChars maxLines run.reverse :=
    fun run h => ⟨by rw [List.length_reverse]; exact h.chars, by
      rw [List.count_reverse]; exact h.breaks⟩
  obtain ⟨⟨hstart, hfits⟩, hlongest⟩ := isLongest_window maxChars maxLines cs.reverse
  refine ⟨⟨?_, hturned _ hfits⟩, ?_⟩
  · rw [← List.reverse_prefix, List.reverse_reverse]
    exact hstart
  · rintro run ⟨hsuffix, hrun⟩
    have hle := hlongest run.reverse ⟨List.reverse_prefix.mpr hsuffix, hturned run hrun⟩
    rwa [List.length_reverse] at hle ⊢

namespace Source

/-- The context of a location at the start of a character, or past the end, which counts as the end:
the longest text up to it and the longest text from it that are within the limits. -/
theorem isLongest_context (source : Source) (l : Location) (maxChars maxLines : Nat)
    (boundary : String.Pos.Raw.IsValid source.content
      ⟨min l.offset source.content.utf8ByteSize⟩) :
    ∃ before rest : String, source.content = before ++ rest ∧
      before.utf8ByteSize = min l.offset source.content.utf8ByteSize ∧
      IsLongest (fun run => run <:+ before.toList ∧ FitsLimits maxChars maxLines run)
        (source.context l maxChars maxLines).1.toList ∧
      IsLongest (fun run => run <+: rest.toList ∧ FitsLimits maxChars maxLines run)
        (source.context l maxChars maxLines).2.toList ∧
      ∃ front back : String, before = front ++ (source.context l maxChars maxLines).1 ∧
        source.content = front ++ ((source.context l maxChars maxLines).1 ++
          (source.context l maxChars maxLines).2) ++ back := by
  obtain ⟨before, rest, hcontent, hplace⟩ := String.Pos.Raw.isValid_iff_exists_append.mp boundary
  have hn : before.utf8ByteSize = min l.offset source.content.utf8ByteSize :=
    (congrArg String.Pos.Raw.byteIdx hplace).symm
  have hbefore := isLongest_reverse_window maxChars maxLines before.toList
  have hrest := isLongest_window maxChars maxLines rest.toList
  rw [context, splitBytes_of_append hcontent hn]
  dsimp only
  rw [String.toList_ofList, String.toList_ofList]
  obtain ⟨front, hfront⟩ := hbefore.holds.1
  obtain ⟨back, hback⟩ := hrest.holds.1
  refine ⟨before, rest, hcontent, hn, hbefore, hrest, String.ofList front, String.ofList back, ?_, ?_⟩
  · rw [← String.ofList_append, hfront, String.ofList_toList]
  · rw [hcontent, ← String.ofList_append, ← String.ofList_append, ← String.ofList_append,
      ← List.append_assoc, hfront, List.append_assoc, hback, String.ofList_append,
      String.ofList_toList, String.ofList_toList]

def fourLines : Source := ⟨"", "α\nβγ\nδε\nζη"⟩

/-- In front of the third line a second line break is too many, and behind its start a fifth character. -/
theorem isLongest_context_fourLines :
    String.Pos.Raw.IsValid fourLines.content ⟨min 8 fourLines.content.utf8ByteSize⟩ ∧
      fourLines.context ⟨8, 2, 0⟩ 4 2 = ("βγ\n", "δε\nζ") ∧
      IsLongest (fun run => run <:+ "α\nβγ\n".toList ∧ FitsLimits 4 2 run) "βγ\n".toList ∧
      IsLongest (fun run => run <+: "δε\nζη".toList ∧ FitsLimits 4 2 run) "δε\nζ".toList := by
  have boundary : String.Pos.Raw.IsValid fourLines.content
      ⟨min 8 fourLines.content.utf8ByteSize⟩ := by decide +kernel
  have hcontext : fourLines.context ⟨8, 2, 0⟩ 4 2 = ("βγ\n", "δε\nζ") := by decide +kernel
  have hsplit : splitBytes 8 fourLines.content.toList =
      ("α\nβγ\n".toList, "δε\nζη".toList) := by decide +kernel
  obtain ⟨before, rest, hcontent, hn, hbefore, hrest, -⟩ :=
    isLongest_context fourLines ⟨8, 2, 0⟩ 4 2 boundary
  obtain ⟨htext, hmore⟩ := Prod.mk.inj ((splitBytes_of_append hcontent hn).symm.trans hsplit)
  rw [hcontext, htext] at hbefore
  rw [hcontext, hmore] at hrest
  exact ⟨boundary, hcontext, hbefore, hrest⟩

end Source

end LiveMarkup
