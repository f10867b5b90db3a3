import LiveMarkup.Proofs.Markup.AttributeNames
import LiveMarkup.Proofs.Markup.Grammar
import LiveMarkup.Proofs.Placeholder.Restoring

namespace LiveMarkup

def Marked (names : List String) (cs : List Char) : Prop :=
  ∀ t, t <:+ cs → ∀ digits rest, Marker.read? t = some (digits, rest) →
    ∃ k < names.length, digits = Nat.toDigits 10 k

theorem Scanned.marked {names : List String} {cs : List Char} (h : Scanned names cs) :
    Marked names cs := fun t ht => (h t ht).2

namespace Marked

variable {names : List String} {cs : List Char}

theorem suffix {t : List Char} (h : Marked names cs) (ht : t <:+ cs) : Marked names t :=
  fun u hu => h u (hu.trans ht)

theorem of_infix {part : List Char} (h : Marked names cs) (hp : part <:+: cs) : Marked names part := by
  obtain ⟨before, after, rfl⟩ := hp
  intro t ht digits rest hr
  obtain ⟨more, rfl⟩ := ht
  obtain ⟨rfl, hne, hall⟩ := Marker.read?_eq_some hr
  exact h (Marker.spellDigits digits ++ (rest ++ after)) ⟨before ++ more, by simp⟩ digits
    (rest ++ after) (Marker.read?_spellDigits _ hne hall)

theorem unifyLineEnds (h : Marked names cs) : Marked names (unifyLineEnds cs) := by
  intro t ht digits rest hr
  obtain ⟨more, hmore, rfl⟩ := exists_of_suffix_unifyLineEnds ht
  obtain ⟨hspelled, hne, hall⟩ := Marker.read?_eq_some hr
  have hfeed : '\n' ∉ Marker.spellDigits digits := by
    have hno : isDecimalDigit '\n' = false := by decide +kernel
    intro hmem
    have hin : '\n' ∈ digits := by simpa [Marker.spellDigits] using hmem
    rw [hall _ hin] at hno
    cases hno
  obtain ⟨after, rfl⟩ := isPrefix_of_unifyLineEnds ⟨rest, hspelled.symm⟩ hfeed
  exact h _ hmore digits after (Marker.read?_spellDigits _ hne hall)

end Marked

def IsInner (c : Char) : Prop := endsName c = false ∧ c ≠ '-'

theorem Placeholder.isInner_of_staysInName {c : Char} (h : staysInName c = true) : IsInner c := by
  have hno : ('-' :: nameEnds).all (!staysInName ·) = true := by decide +kernel
  have hout : c ∉ '-' :: nameEnds := fun hmem => by
    have hc := List.all_eq_true.mp hno c hmem
    rw [h] at hc
    cases hc
  rw [List.mem_cons, not_or] at hout
  exact ⟨Bool.eq_false_iff.mpr fun he => hout.2 (mem_nameEnds_of_endsName he), hout.1⟩

theorem Placeholder.isInner_of_read? {cs name rest : List Char} (h : read? cs = some (name, rest)) :
    ∀ c ∈ name, IsInner c := by
  obtain ⟨_, _, -, -, -, hread, -⟩ := read?_eq_some_iff.mp h
  rcases readName_eq hread with rfl | ⟨hall, -⟩
  · intro c hc
    rw [List.mem_singleton] at hc
    subst hc
    exact ⟨by decide, by decide⟩
  · exact fun c hc => isInner_of_staysInName (hall c hc)

theorem exists_restorePiece {names : List String} (hn : NameList names) {k : Nat}
    (hk : k < names.length) :
    ∃ w, restorePiece names (.found (Nat.toDigits 10 k)) = '$' :: w ∧ ∀ c ∈ w, IsInner c := by
  have hbraces : ∀ c ∈ ['\x7b', '\x7d', '*'], IsInner c := by
    intro c hc
    simp only [List.mem_cons, List.not_mem_nil, or_false] at hc
    rcases hc with rfl | rfl | rfl
    all_goals exact ⟨by decide, by decide⟩
  rw [restorePiece_toDigits (List.getElem?_eq_getElem hk)]
  split
  · have hname := Placeholder.isInner_of_read? (hn.readable names[k] (List.getElem_mem hk) [])
    refine ⟨_, rfl, fun c hc => ?_⟩
    simp only [List.mem_cons, List.mem_append, List.not_mem_nil, or_false] at hc
    rcases hc with hc | hc | hc
    · exact hbraces c (by simp [hc])
    · exact hname c hc
    · exact hbraces c (by simp [hc])
  · refine ⟨_, rfl, fun c hc => ?_⟩
    simp only [List.mem_cons, List.mem_append, List.not_mem_nil, or_false] at hc
    rcases hc with hc | hc | hc | hc | hc
    · exact hbraces c (by simp [hc])
    · exact hbraces c (by simp [hc])
    · have hdigit := Nat.isDigit_of_mem_toDigits (by decide) (by decide) hc
      have hword : isWord c = true := isWord_of_isAlphanum (by simp [Char.isAlphanum, hdigit])
      exact Placeholder.isInner_of_staysInName (by
        simp [Placeholder.staysInName, continuesName, hword])
    · exact hbraces c (by simp [hc])
    · exact hbraces c (by simp [hc])

/-- The text goes over to the other one where some parts of it become texts of a dollar and inner
characters. -/
inductive RestoresTo : List Char → List Char → Prop where
  | nil : RestoresTo [] []
  | marker {marker w cs out : List Char} (inner : ∀ c ∈ w, IsInner c) (rest : RestoresTo cs out) :
      RestoresTo (marker ++ cs) ('$' :: w ++ out)
  | same (c : Char) {cs out : List Char} (rest : RestoresTo cs out) : RestoresTo (c :: cs) (c :: out)

theorem Marked.restoresTo {names : List String} (hn : NameList names) {cs : List Char}
    (h : Marked names cs) : RestoresTo cs ((Marker.pattern.split cs).flatMap (restorePiece names)) := by
  induction cs using Marker.pattern.textInduction with
  | nil =>
    rw [Pattern.split_nil]
    exact .nil
  | plain c cs hnone ih =>
    rw [Marker.split_cons_of_none hnone, List.flatMap_cons, restorePiece, List.singleton_append]
    exact .same c (ih (h.suffix (List.suffix_cons c cs)))
  | found cs digits rest hr ih =>
    obtain ⟨k, hk, rfl⟩ := h cs (List.suffix_refl _) digits rest hr
    obtain ⟨w, hw, hinner⟩ := exists_restorePiece hn hk
    obtain ⟨hcs, -, -⟩ := Marker.read?_eq_some hr
    have hrest : rest <:+ cs := hcs ▸ List.suffix_append _ _
    rw [Marker.split_of_read? hr, List.flatMap_cons, hw]
    have hmore := ih (h.suffix hrest)
    exact hcs ▸ .marker hinner hmore

namespace RestoresTo

variable {cs out part : List Char}

theorem nonempty (h : RestoresTo cs out) (hcs : cs ≠ []) : out ≠ [] := by
  cases h with
  | nil => exact absurd rfl hcs
  | marker inner rest => simp
  | same c rest => simp

theorem mem_cases (h : RestoresTo cs out) {c : Char} (hc : c ∈ out) :
    c ∈ cs ∨ c = '$' ∨ IsInner c := by
  induction h with
  | nil => cases hc
  | marker inner rest ih =>
    rcases List.mem_append.mp hc with hc | hc
    · exact .inr ((List.mem_cons.mp hc).imp_right (inner c))
    · exact (ih hc).imp_left (List.mem_append_right _)
  | same d rest ih =>
    rcases List.mem_cons.mp hc with rfl | hc
    · exact .inl List.mem_cons_self
    · exact (ih hc).imp_left (List.mem_cons_of_mem d)

theorem isPrefix (h : RestoresTo cs out) (hdollar : '$' ∉ part) (hp : part <+: out) : part <+: cs := by
  induction h generalizing part with
  | nil => exact hp
  | marker inner rest ih =>
    rcases List.prefix_cons_iff.mp hp with rfl | ⟨more, rfl, -⟩
    · exact List.nil_prefix
    · exact absurd List.mem_cons_self hdollar
  | same c rest ih =>
    rcases List.prefix_cons_iff.mp hp with rfl | ⟨more, rfl, hmore⟩
    · exact List.nil_prefix
    · exact List.cons_prefix_cons.mpr ⟨rfl, ih (fun h => hdollar (List.mem_cons_of_mem c h)) hmore⟩

theorem isInfix (h : RestoresTo cs out) (hdollar : '$' ∉ part) (hinner : ∀ c ∈ part.head?, ¬ IsInner c)
    (hp : part <:+: out) : part <:+: cs := by
  induction h with
  | nil => exact hp
  | @marker marker w cs out inner rest ih =>
    obtain ⟨t, hstart, hsuffix⟩ := List.infix_iff_prefix_suffix.mp hp
    rcases suffix_append_cases hsuffix with hsuffix | ⟨x, hx, after, rfl⟩
    · exact (ih (hstart.isInfix.trans hsuffix.isInfix)).trans (List.suffix_append _ _).isInfix
    · rcases List.prefix_cons_iff.mp hstart with rfl | ⟨more, rfl, -⟩
      · exact List.nil_infix
      · rcases List.mem_cons.mp hx with rfl | hx
        · exact absurd List.mem_cons_self hdollar
        · exact absurd (inner x hx) (hinner x rfl)
  | same c rest ih =>
    rcases List.infix_cons_iff.mp hp with hstart | hp
    · exact ((RestoresTo.same c rest).isPrefix hdollar hstart).isInfix
    · exact (ih hp).trans (List.suffix_cons c _).isInfix

end RestoresTo

theorem isAttributeName_restore {names : List String} (hn : NameList names) {name : String}
    (h : Marked names name.toList) (hname : IsAttributeName name) :
    IsAttributeName (restore names name) := by
  have hrestores := h.restoresTo hn
  rw [← toList_restore] at hrestores
  refine ⟨hrestores.nonempty hname.nonempty, fun c hc => ?_⟩
  rcases hrestores.mem_cases hc with hc | rfl | hc
  · exact hname.inside c hc
  · decide
  · exact hc.1

theorem isComment_restore {names : List String} (hn : NameList names) {value : String}
    (h : Marked names value.toList) (hvalue : IsComment value) : IsComment (restore names value) := by
  have hrestores := h.restoresTo hn
  rw [← toList_restore] at hrestores
  refine ⟨fun hp => hvalue.unclosed (hrestores.isInfix (by decide) (fun c hc hinner => ?_) hp),
    fun hmem => ?_⟩
  · exact hinner.2 (Option.some.inj hc).symm
  · rcases hrestores.mem_cases hmem with hmem | he | hinner
    · exact hvalue.noReturn hmem
    · exact absurd he (by decide)
    · exact absurd hinner.1 (by decide)

end LiveMarkup
