import LiveMarkup.Proofs.Markup.AttributeNames
import LiveMarkup.Proofs.Markup.Escaping
import LiveMarkup.Proofs.Placeholder.Stemming

namespace LiveMarkup

/-- A character that a marker can have. -/
def isMarkerChar (c : Char) : Bool :=
  c = '$' || c = '\x7b' || c = '*' || c = '\x7d' || isDecimalDigit c

/-- The second text is the first one with some runs replaced by a character each. None of the runs
has a part of a marker, and no marker has the character. -/
inductive Respells : List Char → List Char → Prop where
  | nil : Respells [] []
  | keep {cs ds : List Char} (c : Char) (rest : Respells cs ds) : Respells (c :: cs) (c :: ds)
  | replace {cs ds run : List Char} {c d : Char} (first : isMarkerChar c = false)
      (inside : '$' ∉ run) (new : isMarkerChar d = false) (rest : Respells cs ds) :
      Respells (c :: (run ++ cs)) (d :: ds)

theorem isMarkerChar_of_mem_spellDigits {digits : List Char}
    (h : ∀ c ∈ digits, isDecimalDigit c = true) :
    ∀ c ∈ Marker.spellDigits digits, isMarkerChar c = true := by
  intro c hc
  simp only [Marker.spellDigits, List.mem_cons, List.mem_append, List.not_mem_nil, or_false] at hc
  rcases hc with rfl | rfl | rfl | hc | rfl | rfl
  · rfl
  · rfl
  · rfl
  · simp [isMarkerChar, h c hc]
  · rfl
  · rfl

namespace Respells

variable {u cs ds : List Char}

theorem of_append (h : Respells (u ++ cs) ds) (hu : ∀ c ∈ u, isMarkerChar c = true) :
    ∃ ds', ds = u ++ ds' ∧ Respells cs ds' := by
  induction u generalizing ds with
  | nil => exact ⟨ds, rfl, h⟩
  | cons c u ih =>
    have hrest : ∀ c ∈ u, isMarkerChar c = true := fun c hc => hu c (List.mem_cons_of_mem _ hc)
    generalize hall : c :: u ++ cs = all at h
    cases h with
    | nil => cases hall
    | keep d rest =>
      obtain ⟨rfl, rfl⟩ := List.cons.inj hall
      obtain ⟨ds', rfl, hds⟩ := ih rest hrest
      exact ⟨ds', rfl, hds⟩
    | replace first _ _ _ =>
      rw [← (List.cons.inj hall).1, hu c List.mem_cons_self] at first
      cases first

theorem to_append (h : Respells cs (u ++ ds)) (hu : ∀ c ∈ u, isMarkerChar c = true) :
    ∃ cs', cs = u ++ cs' ∧ Respells cs' ds := by
  induction u generalizing cs with
  | nil => exact ⟨cs, rfl, h⟩
  | cons c u ih =>
    have hrest : ∀ c ∈ u, isMarkerChar c = true := fun c hc => hu c (List.mem_cons_of_mem _ hc)
    rw [List.cons_append] at h
    cases h with
    | keep _ rest =>
      obtain ⟨cs', rfl, hcs⟩ := ih rest hrest
      exact ⟨cs', rfl, hcs⟩
    | replace _ _ new _ =>
      rw [hu c List.mem_cons_self] at new
      cases new

theorem occurrences_eq (h : Respells cs ds) :
    Marker.pattern.occurrences cs = Marker.pattern.occurrences ds := by
  induction hn : cs.length using Nat.strong_induction_on generalizing cs ds with
  | _ n ih =>
    subst hn
    cases hr : Marker.read? cs with
    | some r =>
      obtain ⟨digits, rest⟩ := r
      obtain ⟨rfl, hne, hdigits⟩ := Marker.read?_eq_some hr
      obtain ⟨ds', rfl, hrest⟩ := h.of_append (isMarkerChar_of_mem_spellDigits hdigits)
      have hr' : Marker.read? (Marker.spellDigits digits ++ ds') = some (digits, ds') :=
        Marker.read?_spellDigits ds' hne hdigits
      rw [Marker.occurrences_of_read? hr,
        Marker.occurrences_of_read? hr',
        ih _ (Marker.length_lt_of_read? hr) hrest rfl]
    | none =>
      have hr' : Marker.read? ds = none := by
        rw [Option.eq_none_iff_forall_ne_some]
        rintro ⟨digits, rest⟩ hr'
        obtain ⟨rfl, hne, hdigits⟩ := Marker.read?_eq_some hr'
        obtain ⟨cs', rfl, -⟩ := h.to_append (isMarkerChar_of_mem_spellDigits hdigits)
        rw [Marker.read?_spellDigits cs' hne hdigits] at hr
        cases hr
      cases h with
      | nil => rfl
      | keep c rest =>
        rw [Marker.occurrences_cons_of_none hr,
          Marker.occurrences_cons_of_none hr',
          ih _ (Nat.lt_succ_self _) rest rfl]
      | @replace cs ds run c d first inside new rest =>
        rw [Marker.occurrences_cons_of_none hr,
          Marker.occurrences_cons_of_none hr',
          Marker.occurrences_append_of_no_dollar inside]
        refine ih _ ?_ rest rfl
        rw [List.length_cons, List.length_append]
        omega

end Respells

theorem respells_unifyLineEnds (cs : List Char) : Respells cs (unifyLineEnds cs) := by
  have hreturn : isMarkerChar '\r' = false := by decide +kernel
  have hfeed : isMarkerChar '\n' = false := by decide +kernel
  fun_induction unifyLineEnds cs with
  | case1 => exact .nil
  | case2 rest ih => exact @Respells.replace _ _ ['\n'] _ _ hreturn (by decide) hfeed ih
  | case3 rest hne ih => exact @Respells.replace _ _ [] _ _ hreturn (by simp) hfeed ih
  | case4 c rest hne hne' ih => exact .keep c ih

theorem occurrences_unifyLineEnds (cs : List Char) :
    Marker.pattern.occurrences (unifyLineEnds cs) = Marker.pattern.occurrences cs :=
  (respells_unifyLineEnds cs).occurrences_eq.symm

namespace Reference

/-- No reference in the text stands for a character that a marker can have. -/
def NoMarkerChars (cs : List Char) : Prop :=
  ∀ t ∈ cs.tails, ∀ r ∈ read? t, isMarkerChar r.1 = false

instance (cs : List Char) : Decidable (NoMarkerChars cs) :=
  inferInstanceAs (Decidable (∀ t ∈ cs.tails, ∀ r ∈ read? t, isMarkerChar r.1 = false))

theorem read?_eq_some {cs rest : List Char} {c : Char} (h : read? cs = some (c, rest)) :
    ∃ body, cs = '&' :: (body ++ ';' :: rest) ∧ decodeBody? body = some c ∧ ';' ∉ body ∧
      body.length ≤ maxBody := by
  unfold read? at h
  split at h
  · rename_i inner
    dsimp only at h
    split at h
    · rename_i after hafter
      obtain ⟨d, hbody, hd⟩ := Option.map_eq_some_iff.mp h
      obtain ⟨rfl, rfl⟩ := Prod.mk.inj hd
      have hprefix : (inner.take maxBody).takeWhile (· != ';') <+: inner :=
        (List.takeWhile_prefix _).trans (List.take_prefix _ _)
      refine ⟨_, ?_, hbody, ?_, ?_⟩
      · rw [← hafter, List.prefix_iff_eq_append.mp hprefix]
      · intro hmem
        simpa using List.mem_takeWhile_imp hmem
      · exact Nat.le_trans (List.takeWhile_prefix _).length_le (List.length_take_le _ _)
    · cases h
  · cases h

theorem read?_of_body {body : List Char} {c : Char} (hbody : decodeBody? body = some c)
    (hend : ';' ∉ body) (hlen : body.length ≤ maxBody) (rest : List Char) :
    read? ('&' :: (body ++ ';' :: rest)) = some (c, rest) := by
  have hrun : ((body ++ ';' :: rest).take maxBody).takeWhile (· != ';') = body := by
    rw [List.take_append, List.take_of_length_le hlen, List.takeWhile_append_of_pos]
    · cases maxBody - body.length <;> simp
    · intro d hd
      rw [bne_iff_ne, ne_eq]
      rintro rfl
      exact hend hd
  simp only [read?, hrun, List.drop_left, hbody, Option.map_some]

def isBodyChar (d : Char) : Bool :=
  isHexDigit d || d = '#' || d = 'x' || d = 'X' ||
    namedCharacters.any fun n => n.1.toList.contains d

theorem isBodyChar_of_decodeBody? {body : List Char} {c : Char} (h : decodeBody? body = some c) :
    ∀ d ∈ body, isBodyChar d = true := by
  have hnumbered : ∀ (base : Nat) (isDigit : Char → Bool) (digits : List Char),
      (∀ d, isDigit d = true → isHexDigit d = true) → numbered? base isDigit digits = some c →
      ∀ d ∈ digits, isBodyChar d = true := by
    intro base isDigit digits hhex hnumber d hd
    unfold numbered? at hnumber
    split at hnumber
    · cases hnumber
    · rename_i hdigits
      simp only [Bool.or_eq_true, Bool.not_eq_true', not_or, Bool.not_eq_false, List.all_eq_true]
        at hdigits
      simp [isBodyChar, hhex d (hdigits.2 d hd)]
  unfold decodeBody? at h
  split at h
  · have hsign : ∀ d ∈ ['#', 'x'], isBodyChar d = true := by simp [isBodyChar]
    exact List.forall_mem_append.mpr ⟨hsign, hnumbered _ _ _ (fun _ h => h) h⟩
  · have hsign : ∀ d ∈ ['#', 'X'], isBodyChar d = true := by simp [isBodyChar]
    exact List.forall_mem_append.mpr ⟨hsign, hnumbered _ _ _ (fun _ h => h) h⟩
  · have hsign : isBodyChar '#' = true := by decide
    refine List.forall_mem_cons.mpr ⟨hsign, hnumbered _ _ _ (fun d hd => ?_) h⟩
    simp [isHexDigit, hd]
  · obtain ⟨n, hn, -⟩ := Option.map_eq_some_iff.mp h
    have hname := List.find?_some hn
    rw [beq_iff_eq] at hname
    intro d hd
    have hany : namedCharacters.any (fun n => n.1.toList.contains d) = true :=
      List.any_eq_true.mpr ⟨n, List.mem_of_find?_eq_some hn, by simpa [hname] using hd⟩
    rw [isBodyChar, hany, Bool.or_true]

theorem dollar_not_mem_of_decodeBody? {body : List Char} {c : Char}
    (h : decodeBody? body = some c) : '$' ∉ body := fun hmem => by
  have hdollar : isBodyChar '$' = false := by decide
  rw [isBodyChar_of_decodeBody? h _ hmem] at hdollar
  cases hdollar

theorem exists_read?_of_infix {cs run s rest : List Char} {c : Char} (hrun : run <:+: cs)
    (hs : s <:+ run) (h : read? s = some (c, rest)) :
    ∃ s' rest', s' <:+ cs ∧ read? s' = some (c, rest') := by
  obtain ⟨before, after, rfl⟩ := hrun
  obtain ⟨more, rfl⟩ := hs
  obtain ⟨body, rfl, hbody, hend, hlen⟩ := read?_eq_some h
  exact ⟨_, rest ++ after, ⟨before ++ more, by simp⟩, read?_of_body hbody hend hlen (rest ++ after)⟩

theorem suffix_of_read? {cs rest : List Char} {c : Char} (h : read? cs = some (c, rest)) :
    rest <:+ cs := by
  obtain ⟨body, rfl, -⟩ := read?_eq_some h
  exact ⟨'&' :: (body ++ [';']), by simp⟩

theorem NoMarkerChars.of_infix {cs run : List Char} (h : NoMarkerChars cs) (hrun : run <:+: cs) :
    NoMarkerChars run := by
  rintro t ht ⟨c, rest⟩ hr
  obtain ⟨t', rest', ht', hr'⟩ := exists_read?_of_infix hrun ((List.mem_tails _ _).mp ht) hr
  exact h t' ((List.mem_tails _ _).mpr ht') (c, rest') hr'

theorem respells_decode {cs : List Char} (h : NoMarkerChars cs) : Respells cs (decode cs) := by
  induction cs using decode_induction with
  | nil =>
    rw [decode_nil]
    exact .nil
  | reference cs c rest hr ih =>
    have hc := h cs ((List.mem_tails _ _).mpr (List.suffix_refl _)) _ hr
    have hrest := ih (h.of_infix (suffix_of_read? hr).isInfix)
    rw [decode_of_read? hr]
    obtain ⟨body, rfl, hbody, -⟩ := read?_eq_some hr
    have hinside : '$' ∉ body ++ [';'] := by
      simpa using dollar_not_mem_of_decodeBody? hbody
    have hamp : isMarkerChar '&' = false := by decide +kernel
    have hall := Respells.replace hamp hinside hc hrest
    rwa [List.append_assoc] at hall
  | char c cs hr ih =>
    rw [decode_cons_of_none hr]
    exact .keep c (ih (h.of_infix (List.suffix_cons c cs).isInfix))

/-- References to other characters do not give rise to markers. -/
theorem occurrences_decode {cs run : List Char} (h : NoMarkerChars cs) (hrun : run <:+: cs) :
    Marker.pattern.occurrences (decode run) = Marker.pattern.occurrences run :=
  (respells_decode (h.of_infix hrun)).occurrences_eq.symm

end Reference

end LiveMarkup
