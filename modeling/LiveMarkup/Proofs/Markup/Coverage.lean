import LiveMarkup.Proofs.Markup.Spans
import LiveMarkup.Proofs.Markup.TokenGrammar

namespace LiveMarkup

theorem append_cons_eq_append {before after xs ys : List Char} {c : Char}
    (h : before ++ c :: after = xs ++ ys) :
    (∃ more, xs = before ++ c :: more) ∨
      ∃ before', before = xs ++ before' ∧ before' ++ c :: after = ys := by
  rcases List.append_eq_append_iff.mp h with ⟨more, hxs, hys⟩ | ⟨before', hbefore, hys⟩
  · cases more with
    | nil => exact .inr ⟨[], by simpa using hxs.symm, hys⟩
    | cons d more => exact .inl ⟨more, by rw [hxs, (List.cons.inj hys).1]⟩
  · exact .inr ⟨before', hbefore, hys.symm⟩

theorem Cursor.Onward.offset_le {k k' : Cursor} (h : k.Onward k') :
    k.location.offset ≤ k'.location.offset := by
  obtain ⟨n, rfl⟩ := h
  exact k.location.offset_after_le _

namespace Laid

variable {clean : Prop} {i j : Bool} {k k' : Cursor} {ts : List Token}

theorem spelled (h : Laid clean i k ts j k') : ∀ t ∈ ts, ∃ start stop run, k.Onward start ∧
    start.Reads run stop ∧ t.span = start.spanTo stop ∧ t.lexeme.Spells run := by
  induction h with
  | nil reads gap => simp
  | cons reads gap covers spells leads rest ih =>
    intro t ht
    rcases List.mem_cons.mp ht with rfl | ht
    · exact ⟨_, _, _, reads.onward, covers, rfl, spells⟩
    · obtain ⟨start, stop, run, hstart, hrun, hspan, hspells⟩ := ih t ht
      exact ⟨start, stop, run, (reads.onward.trans covers.onward).trans hstart, hrun, hspan, hspells⟩

theorem offset_le_start (h : Laid clean i k ts j k') :
    ∀ t ∈ ts, k.location.offset ≤ t.span.start.offset := by
  intro t ht
  obtain ⟨start, stop, run, hstart, -, hspan, -⟩ := h.spelled t ht
  rw [hspan]
  exact hstart.offset_le

theorem pairwise (h : Laid clean i k ts j k') :
    ts.Pairwise fun t u => t.span.stop.offset ≤ u.span.start.offset := by
  induction h with
  | nil reads gap => exact .nil
  | cons reads gap covers spells leads rest ih => exact .cons rest.offset_le_start ih

end Laid

/-- The offset is that of a character in the span. -/
def Span.Covers (span : Span) (offset : Nat) : Prop :=
  span.start.offset ≤ offset ∧ offset < span.stop.offset

/-- The offset is between the attributes of a start tag, or before or behind them. -/
def InStartTag (tokens : List Token) (offset : Nat) : Prop :=
  ∃ before name span inside stop after,
    tokens = before ++ ⟨.startTag name, span⟩ :: (inside ++ stop :: after) ∧
      (∀ t ∈ inside, Item.isAttribute t = true) ∧ stop.endsStartTag ∧
      span.stop.offset ≤ offset ∧ offset < stop.span.start.offset

/-- Of a start tag that the offset is in, these are the tokens behind the offset. -/
def EndsStartTag (tokens : List Token) (offset : Nat) : Prop :=
  ∃ inside stop after, tokens = inside ++ stop :: after ∧
    (∀ t ∈ inside, Item.isAttribute t = true) ∧ stop.endsStartTag ∧
    offset < stop.span.start.offset

theorem InStartTag.cons {tokens : List Token} {offset : Nat} (h : InStartTag tokens offset)
    (t : Token) : InStartTag (t :: tokens) offset := by
  obtain ⟨before, name, span, inside, stop, after, rfl, hrest⟩ := h
  exact ⟨t :: before, name, span, inside, stop, after, rfl, hrest⟩

theorem EndsStartTag.cons {tokens : List Token} {offset : Nat} {t : Token}
    (h : EndsStartTag tokens offset) (ht : Item.isAttribute t = true) :
    EndsStartTag (t :: tokens) offset := by
  obtain ⟨inside, stop, after, rfl, hinside, hrest⟩ := h
  exact ⟨t :: inside, stop, after, rfl, List.forall_mem_cons.mpr ⟨ht, hinside⟩, hrest⟩

namespace Laid

variable {k k' : Cursor} {ts : List Token} {i : Bool}

/-- What is inside a start tag at first, and outside in the end, ends the tag. -/
theorem endsStartTag {offset : Nat} (h : Laid True true k ts false k')
    (hoffset : offset < k.location.offset) : EndsStartTag ts offset := by
  generalize hi : true = i at h
  generalize hj : false = j at h
  induction h with
  | nil reads gap =>
    obtain rfl := (gap trivial).2
    rw [← hi] at hj
    cases hj
  | cons reads gap covers spells leads rest ih =>
    have hstart := Nat.lt_of_lt_of_le hoffset reads.onward.offset_le
    subst hi
    cases leads trivial with
    | attributeName | attributeValue =>
      exact (ih (hstart.trans_le covers.onward.offset_le) rfl hj).cons rfl
    | startTagEnd => exact ⟨[], _, _, rfl, by simp, .inl rfl, hstart⟩
    | startTagEndVoid => exact ⟨[], _, _, rfl, by simp, .inr rfl, hstart⟩

/-- A character outside of all spans is one between the attributes of a start tag. -/
theorem covered {run before after : List Char} {c : Char} (h : Laid True i k ts false k')
    (hrun : k.Reads run k') (hsplit : run = before ++ c :: after)
    (hout : ∀ t ∈ ts, ¬ t.span.Covers (k.location.after before).offset) :
    (isMarkupSpace c = true ∨ c = '=') ∧
      (i = true ∧ EndsStartTag ts (k.location.after before).offset ∨
        InStartTag ts (k.location.after before).offset) := by
  generalize hj : false = j at h
  induction h generalizing run before with
  | nil reads gap =>
    obtain ⟨hgap, rfl⟩ := gap trivial
    rw [List.append_cancel_right (hrun.rest.symm.trans reads.rest)] at hsplit
    have hc := hgap c (by simp [hsplit])
    rw [← hj] at hc
    cases hc.1
  | @cons i j _ k start stop _ gapRun body lexeme ts reads gap covers spells leads rest ih =>
    obtain ⟨more, hmore⟩ := rest.onward.reads
    have hparts : before ++ c :: after = gapRun ++ (body ++ more) := by
      rw [← hsplit, ← List.append_assoc]
      exact List.append_cancel_right (hrun.rest.symm.trans ((reads.trans covers).trans hmore).rest)
    -- the character is in front of the first token, in it or behind it
    rcases append_cons_eq_append hparts with ⟨gapRest, hin⟩ | ⟨before', rfl, hlater⟩
    · obtain ⟨rfl, hc⟩ := gap trivial c (by simp [hin])
      refine ⟨hc, .inl ⟨rfl, ?_⟩⟩
      subst hj
      refine endsStartTag (.cons (.refl start) (fun _ => isGap_nil _) covers spells leads rest) ?_
      rw [reads.location, hin, Location.after_append]
      exact Location.offset_lt_after _ (by simp)
    · rw [Location.after_append, ← reads.location] at hout ⊢
      rcases append_cons_eq_append hlater with ⟨bodyRest, hin⟩ | ⟨before'', rfl, hlast⟩
      · -- the span of the token covers all of its characters
        refine absurd ⟨start.location.offset_after_le _, ?_⟩ (hout _ List.mem_cons_self)
        rw [Cursor.spanTo, covers.location, hin, Location.after_append]
        exact Location.offset_lt_after _ (by simp)
      · rw [Location.after_append, ← covers.location] at hout ⊢
        obtain ⟨hc, hinside⟩ := ih hmore hlast.symm
          (fun t ht => hout t (List.mem_cons_of_mem _ ht)) hj
        refine ⟨hc, ?_⟩
        rcases hinside with ⟨rfl, hends⟩ | hin
        · cases leads trivial with
          | startTag name =>
            obtain ⟨inside, last, others, rfl, hinside, hlast, hbefore⟩ := hends
            exact .inr ⟨[], name, _, inside, last, others, rfl, hinside, hlast,
              stop.location.offset_after_le _, hbefore⟩
          | attributeName | attributeValue => exact .inl ⟨rfl, hends.cons rfl⟩
        · exact .inr (hin.cons _)

end Laid

def Location.IsIn (cs : List Char) (l : Location) : Prop := ∃ before, before <+: cs ∧ l.Behind before

theorem Cursor.Onward.isIn {cs : List Char} {k : Cursor} (h : Onward ⟨.start, cs⟩ k) :
    k.location.IsIn cs := by
  obtain ⟨before, hreads⟩ := h.reads
  refine ⟨before, ⟨k.rest, hreads.rest.symm⟩, ?_⟩
  rw [hreads.location]
  exact Location.behind_after before

/-- All places that tokens and errors refer to are places of the text, the spans of the tokens do not
overlap, and what they cover is what the tokens say. -/
structure Lexed.Exact (cs : List Char) (lexed : Lexed) : Prop where
  content : lexed.source.content = String.ofList cs
  tokens : ∀ t ∈ lexed.tokens, t.span.start.IsIn cs ∧ t.span.stop.IsIn cs
  errors : ∀ d ∈ lexed.errors, d.span.start.IsIn cs ∧ d.span.stop.IsIn cs
  forward : ∀ t ∈ lexed.tokens, t.span.start.offset ≤ t.span.stop.offset
  ordered : lexed.tokens.Pairwise fun t u => t.span.stop.offset ≤ u.span.start.offset
  startTags : ∀ name span, ⟨.startTag name, span⟩ ∈ lexed.tokens →
    lexed.source.text span = "<" ++ name
  attributeNames : ∀ name span, ⟨.attributeName name, span⟩ ∈ lexed.tokens →
    lexed.source.text span = name
  comments : ∀ body span, ⟨.comment body, span⟩ ∈ lexed.tokens →
    lexed.source.text span = "<!--" ++ body ++ "-->"
  sections : ∀ body span, ⟨.cdata body, span⟩ ∈ lexed.tokens →
    lexed.source.text span = "<![CDATA[" ++ body ++ "]]>"
  /-- Without an error, what no token covers is white space or an equals sign in a start tag. -/
  covered : lexed.errors = [] → ∀ before c after, cs = before ++ c :: after →
    (∀ t ∈ lexed.tokens, ¬ t.span.Covers (byteLength before)) →
    (isMarkupSpace c = true ∨ c = '=') ∧ InStartTag lexed.tokens (byteLength before)

/-- The tokens of a text are laid one behind the other from its start to its end. -/
theorem laid_lex (text url : String) : ∃ last : Cursor, last.rest = [] ∧
    Laid ((lex text url).errors = []) false ⟨.start, unifyLineEnds text.toList⟩
      (lex text url).tokens false last :=
  (lexFrom_placed _ (Cursor.Onward.refl ⟨.start, unifyLineEnds text.toList⟩) id).1

theorem spells_lex (text url : String) : ∀ t ∈ (lex text url).tokens,
    t.lexeme.Spells ((lex text url).source.text t.span).toList := by
  intro t ht
  obtain ⟨last, -, hlaid⟩ := laid_lex text url
  obtain ⟨start, stop, run, hstart, hrun, hspan, hspells⟩ := hlaid.spelled t ht
  obtain ⟨before, hbefore⟩ := hstart.reads
  have htext : (lex text url).source.text t.span = String.ofList run := by
    rw [hspan]
    exact hbefore.text hrun
  rwa [htext, String.toList_ofList]

/-- A token's span goes from a place of the text to a later one. -/
theorem exists_span_of_mem_tokens (text url : String) : ∀ t ∈ (lex text url).tokens,
    ∃ start stop : Cursor, Cursor.Onward ⟨.start, unifyLineEnds text.toList⟩ start ∧
      start.Onward stop ∧ t.span = start.spanTo stop := by
  intro t ht
  obtain ⟨last, -, hlaid⟩ := laid_lex text url
  obtain ⟨start, stop, run, hstart, hrun, hspan, -⟩ := hlaid.spelled t ht
  exact ⟨start, stop, hstart, hrun.onward, hspan⟩

theorem isIn_of_mem_tokens (text url : String) : ∀ t ∈ (lex text url).tokens,
    t.span.start.IsIn (unifyLineEnds text.toList) ∧ t.span.stop.IsIn (unifyLineEnds text.toList) := by
  intro t ht
  obtain ⟨start, stop, hstart, hstop, hspan⟩ := exists_span_of_mem_tokens text url t ht
  rw [hspan]
  exact ⟨hstart.isIn, (hstart.trans hstop).isIn⟩

theorem isIn_of_mem_errors (text url : String) : ∀ d ∈ (lex text url).errors,
    d.span.start.IsIn (unifyLineEnds text.toList) ∧ d.span.stop.IsIn (unifyLineEnds text.toList) := by
  intro d hd
  obtain ⟨start, stop, hstart, hstop, hspan⟩ := (lexFrom_placed False
    (Cursor.Onward.refl ⟨.start, unifyLineEnds text.toList⟩) False.elim).2 d hd
  rw [hspan]
  exact ⟨hstart.isIn, (hstart.trans hstop).isIn⟩

theorem exact_lex (text url : String) : (lex text url).Exact (unifyLineEnds text.toList) := by
  obtain ⟨last, hlast, hlaid⟩ := laid_lex text url
  have hread : ∀ {lexeme : Lexeme} {span : Span} {said : String},
      ⟨lexeme, span⟩ ∈ (lex text url).tokens → (∀ cs, lexeme.Spells cs → cs = said.toList) →
      (lex text url).source.text span = said :=
    fun ht hsaid => String.toList_inj.mp (hsaid _ (spells_lex text url _ ht))
  refine
    { content := rfl
      tokens := isIn_of_mem_tokens text url
      errors := isIn_of_mem_errors text url
      forward := fun t ht => ?_
      ordered := hlaid.pairwise
      startTags := fun name span ht => ?_
      attributeNames := fun name span ht => ?_
      comments := fun body span ht => ?_
      sections := fun body span ht => ?_
      covered := fun herrors before c after hcs hout => ?_ }
  · obtain ⟨start, stop, -, hstop, hspan⟩ := exists_span_of_mem_tokens text url t ht
    rw [hspan]
    exact hstop.offset_le
  · exact hread ht fun cs h => by cases h; simp
  · exact hread ht fun cs h => by cases h; rfl
  · exact hread ht fun cs h => by cases h; simp
  · exact hread ht fun cs h => by cases h; simp
  · obtain ⟨more, hmore⟩ := hlaid.onward.reads
    have hrun : more = before ++ c :: after := by
      have hrest := hmore.rest
      rw [hlast, List.append_nil] at hrest
      exact hrest.symm.trans hcs
    have hoffset : (Location.start.after before).offset = byteLength before :=
      (Location.behind_after before).offset
    have hclean : Laid True false ⟨.start, unifyLineEnds text.toList⟩ (lex text url).tokens false
        last := by simpa [herrors] using hlaid
    obtain ⟨hc, ⟨hfalse, -⟩ | hinside⟩ := hclean.covered hmore hrun fun t ht => by
      rw [hoffset]
      exact hout t ht
    · cases hfalse
    · rw [hoffset] at hinside
      exact ⟨hc, hinside⟩

end LiveMarkup
