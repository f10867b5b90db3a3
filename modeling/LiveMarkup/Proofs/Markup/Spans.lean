import LiveMarkup.Proofs.Markup.Lexing
import LiveMarkup.Proofs.Markup.TagPlaces

/-!
# How tokens are laid

Each token is read from a run of characters that spells it, behind the run of the token before it. A step
that finds no error leaves only white space and equals signs between them, inside of start tags.
-/

namespace LiveMarkup

/-- The number of bytes of a text. -/
def byteLength : List Char → Nat
  | [] => 0
  | c :: cs => c.utf8Size + byteLength cs

theorem splitBytes_append (cs ds : List Char) : splitBytes (byteLength cs) (cs ++ ds) = (cs, ds) := by
  induction cs with
  | nil => cases ds <;> rfl
  | cons c cs ih =>
    have hpos := c.utf8Size_pos
    have hlength : byteLength (c :: cs) = (c.utf8Size - 1 + byteLength cs) + 1 := by
      rw [byteLength]
      omega
    have hrest : c.utf8Size - 1 + byteLength cs + 1 - c.utf8Size = byteLength cs := by omega
    rw [hlength, List.cons_append, splitBytes, hrest, ih]
    exact Nat.succ_ne_zero _

namespace Location

structure Behind (l : Location) (before : List Char) : Prop where
  offset : l.offset = byteLength before
  line : l.line = before.count '\n'
  column : l.column = (before.reverse.takeWhile (· != '\n')).length

theorem offset_after (l : Location) (cs : List Char) :
    (l.after cs).offset = l.offset + byteLength cs := by
  induction cs generalizing l with
  | nil => rfl
  | cons c cs ih =>
    have hstep : (l.advance c).offset = l.offset + c.utf8Size := by
      unfold advance
      split <;> rfl
    rw [after, List.foldl_cons, ← after, ih, hstep, Nat.add_assoc]
    rfl

theorem behind_after (before : List Char) : (start.after before).Behind before := by
  refine ⟨(offset_after start before).trans (Nat.zero_add _), ?_, ?_⟩
  · induction before using List.reverseRecOn with
    | nil => rfl
    | append_singleton before c ih =>
      rw [after_append, List.count_append, ← ih]
      by_cases hc : c = '\n' <;> simp [after, advance, hc]
  · induction before using List.reverseRecOn with
    | nil => rfl
    | append_singleton before c ih =>
      rw [after_append, List.reverse_append, List.reverse_singleton, List.singleton_append]
      by_cases hc : c = '\n'
      · simp [after, advance, hc]
      · rw [List.takeWhile_cons_of_pos (by simpa using hc), List.length_cons, ← ih]
        simp [after, advance, hc]

end Location

namespace Cursor

structure Reads (k : Cursor) (run : List Char) (k' : Cursor) : Prop where
  rest : k.rest = run ++ k'.rest
  location : k'.location = k.location.after run

variable {k k' k'' : Cursor} {run run' : List Char}

theorem Reads.refl (k : Cursor) : k.Reads [] k := ⟨rfl, rfl⟩

theorem Reads.trans (h : k.Reads run k') (h' : k'.Reads run' k'') : k.Reads (run ++ run') k'' :=
  ⟨by rw [h.rest, h'.rest, List.append_assoc], by
    rw [h'.location, h.location, Location.after_append]⟩

theorem Reads.onward (h : k.Reads run k') : k.Onward k' := by
  refine ⟨run.length, ?_⟩
  obtain ⟨location, rest⟩ := k'
  rw [skip, h.rest, List.take_left, List.drop_left]
  exact congrArg (Cursor.mk · rest) h.location

theorem reads_skip (k : Cursor) (n : Nat) : k.Reads (k.rest.take n) (k.skip n) :=
  ⟨(List.take_append_drop n k.rest).symm, rfl⟩

theorem Onward.reads (h : k.Onward k') : ∃ run, k.Reads run k' := by
  obtain ⟨n, rfl⟩ := h
  exact ⟨_, k.reads_skip n⟩

theorem reads_skip_length {rest : List Char} (h : k.rest = run ++ rest) :
    k.Reads run (k.skip run.length) := by
  have hskip := k.reads_skip run.length
  rwa [h, List.take_left] at hskip

theorem reads_skipSpace (k : Cursor) : k.Reads (k.rest.takeWhile isMarkupSpace) k.skipSpace :=
  reads_skip_length List.takeWhile_append_dropWhile.symm

theorem reads_name (k : Cursor) : k.Reads (nameRun k) (k.skip (nameRun k).length) :=
  reads_skip_length (List.takeWhile_append_dropWhile (p := fun c => !endsName c)).symm

theorem reads_openQuote (k : Cursor) {quote : Char} {rest : List Char} (h : k.rest = quote :: rest) :
    k.Reads (quote :: rest.takeWhile (· != quote))
      (k.skip (1 + (rest.takeWhile (· != quote)).length)) := by
  have hwhole : k.rest = (quote :: rest.takeWhile (· != quote)) ++ rest.dropWhile (· != quote) := by
    rw [h, List.cons_append, List.takeWhile_append_dropWhile]
  have hreads := reads_skip_length hwhole
  rwa [List.length_cons, Nat.add_comm] at hreads

/-- A quoted value is read with the quotes around it. -/
theorem reads_quoted (k : Cursor) {quote : Char} {rest : List Char} (h : k.rest = quote :: rest)
    (hend : ¬ (k.skip (1 + (rest.takeWhile (· != quote)).length)).atEnd = true) :
    k.Reads (quote :: (rest.takeWhile (· != quote) ++ [quote]))
      ((k.skip (1 + (rest.takeWhile (· != quote)).length)).skip 1) := by
  have hstop := k.reads_openQuote h
  have hat : (k.skip (1 + (rest.takeWhile (· != quote)).length)).rest =
      rest.dropWhile (· != quote) := by
    have hrest := hstop.rest
    rw [h, List.cons_append, List.cons.injEq] at hrest
    exact (List.append_cancel_left
      (List.takeWhile_append_dropWhile.trans hrest.2)).symm
  obtain ⟨more, hmore⟩ : ∃ more, rest.dropWhile (· != quote) = [quote] ++ more := by
    cases hdrop : rest.dropWhile (· != quote) with
    | nil =>
      rw [atEnd, hat, hdrop] at hend
      exact absurd rfl hend
    | cons c more =>
      have hc := List.head?_dropWhile_not (· != quote) rest
      rw [hdrop] at hc
      exact ⟨more, by rw [show c = quote by simpa using hc]; rfl⟩
  exact hstop.trans (reads_skip_length (hat.trans hmore))

theorem Reads.text {url : String} {before cs : List Char} (h : Reads ⟨.start, cs⟩ before k)
    (h' : k.Reads run k') :
    Source.text ⟨url, String.ofList cs⟩ (k.spanTo k') = String.ofList run := by
  have hcs : cs = before ++ run ++ k'.rest := (h.trans h').rest
  have hstart : (k.spanTo k').start.offset = byteLength before := by
    rw [Cursor.spanTo, h.location, Location.offset_after]
    exact Nat.zero_add _
  have hstop : (k.spanTo k').stop.offset = byteLength (before ++ run) := by
    rw [Cursor.spanTo, (h.trans h').location, Location.offset_after]
    exact Nat.zero_add _
  rw [Source.text, hstart, hstop, String.toList_ofList, hcs, splitBytes_append]
  dsimp only
  rw [splitBytes_append]

end Cursor

/-- The token is written with these characters. -/
inductive Lexeme.Spells : Lexeme → List Char → Prop where
  | startTag (name : String) : Spells (.startTag name) ('<' :: name.toList)
  | attributeName (name : String) : Spells (.attributeName name) name.toList
  | attributeValue (body : List Char) :
      Spells (.attributeValue (String.ofList (Reference.decode body))) body
  | quotedValue {quote : Char} (isQuote : quote = '"' ∨ quote = '\'') (body : List Char) :
      Spells (.attributeValue (String.ofList (Reference.decode body))) (quote :: (body ++ [quote]))
  | startTagEnd : Spells .startTagEnd ['>']
  | startTagEndVoid : Spells .startTagEndVoid ['/', '>']
  | endTag (name : String) {space space' : List Char}
      (blank : ∀ c ∈ space ++ space', isMarkupSpace c = true) :
      Spells (.endTag name) ('<' :: '/' :: (space ++ (name.toList ++ (space' ++ ['>']))))
  | verbatim (body : List Char) : Spells (.text (String.ofList body)) body
  | decoded (body : List Char) : Spells (.text (String.ofList (Reference.decode body))) body
  | comment (body : String) : Spells (.comment body) ("<!--".toList ++ (body.toList ++ "-->".toList))
  | cdata (body : String) :
      Spells (.cdata body) ("<![CDATA[".toList ++ (body.toList ++ "]]>".toList))
  | doctype (body : String) : Spells (.doctype body) ("<!".toList ++ (body.toList ++ ['>']))
  | endOfSource : Spells .endOfSource []

/-- Behind the token the lexer is inside a start tag, or outside. -/
inductive Lexeme.Leads : Bool → Lexeme → Bool → Prop where
  | startTag (name : String) : Leads false (.startTag name) true
  | attributeName (name : String) : Leads true (.attributeName name) true
  | attributeValue (value : String) : Leads true (.attributeValue value) true
  | startTagEnd : Leads true .startTagEnd false
  | startTagEndVoid : Leads true .startTagEndVoid false
  | endTag (name : String) : Leads false (.endTag name) false
  | text (value : String) : Leads false (.text value) false
  | comment (value : String) : Leads false (.comment value) false
  | cdata (value : String) : Leads false (.cdata value) false
  | doctype (value : String) : Leads false (.doctype value) false
  | endOfSource : Leads false .endOfSource false

/-- What may be left between two tokens. -/
def IsGap (inside : Bool) (run : List Char) : Prop :=
  ∀ c ∈ run, inside = true ∧ (isMarkupSpace c = true ∨ c = '=')

/-- The tokens are read one behind the other from the one cursor up to the other. If the text is clean,
there are only gaps between them. -/
inductive Laid (clean : Prop) : Bool → Cursor → List Token → Bool → Cursor → Prop where
  | nil {inside inside' : Bool} {k k' : Cursor} {run : List Char} (reads : k.Reads run k')
      (gap : clean → IsGap inside run ∧ inside = inside') : Laid clean inside k [] inside' k'
  | cons {inside inside' inside'' : Bool} {k start stop k' : Cursor} {run body : List Char}
      {lexeme : Lexeme} {tokens : List Token} (reads : k.Reads run start)
      (gap : clean → IsGap inside run) (covers : start.Reads body stop)
      (spells : lexeme.Spells body) (leads : clean → lexeme.Leads inside inside')
      (rest : Laid clean inside' stop tokens inside'' k') :
      Laid clean inside k (⟨lexeme, start.spanTo stop⟩ :: tokens) inside'' k'

theorem IsGap.append {inside : Bool} {run run' : List Char} (h : IsGap inside run)
    (h' : IsGap inside run') : IsGap inside (run ++ run') :=
  fun c hc => (List.mem_append.mp hc).elim (h c) (h' c)

theorem isGap_nil (inside : Bool) : IsGap inside [] := by simp [IsGap]

theorem isGap_space (cs : List Char) : IsGap true (cs.takeWhile isMarkupSpace) :=
  fun _ hc => ⟨rfl, .inl (List.mem_takeWhile_imp hc)⟩

namespace Laid

variable {clean : Prop} {i j l : Bool} {k k' k'' : Cursor} {ts us : List Token}

theorem refl (k : Cursor) : Laid clean i k [] i k := .nil (.refl k) fun _ => ⟨isGap_nil i, rfl⟩

theorem from_earlier {run : List Char} (hreads : k.Reads run k') (hgap : clean → IsGap i run)
    (h : Laid clean i k' ts j k'') : Laid clean i k ts j k'' := by
  cases h with
  | nil reads gap =>
    exact .nil (hreads.trans reads) fun hc => ⟨(hgap hc).append (gap hc).1, (gap hc).2⟩
  | cons reads gap covers spells leads rest =>
    exact .cons (hreads.trans reads) (fun hc => (hgap hc).append (gap hc)) covers spells leads rest

theorem append (h : Laid clean i k ts j k') (h' : Laid clean j k' us l k'') :
    Laid clean i k (ts ++ us) l k'' := by
  induction h with
  | @nil i j k k' run reads gap =>
    -- only in a clean text do the two parts have to agree on being inside of a start tag
    by_cases hc : clean
    · obtain ⟨hgap, rfl⟩ := gap hc
      exact h'.from_earlier reads fun _ => hgap
    · cases h' with
      | nil reads' gap' => exact .nil (reads.trans reads') fun h => absurd h hc
      | cons reads' gap' covers spells leads rest =>
        exact .cons (reads.trans reads') (fun h => absurd h hc) covers spells
          (fun h => absurd h hc) rest
  | cons reads gap covers spells leads rest ih =>
    exact .cons reads gap covers spells leads (ih h')

theorem single {run : List Char} {lexeme : Lexeme} (reads : k.Reads run k')
    (spells : lexeme.Spells run) (leads : lexeme.Leads i j) :
    Laid clean i k [⟨lexeme, k.spanTo k'⟩] j k' :=
  .cons (.refl k) (fun _ => isGap_nil i) reads spells (fun _ => leads) (.refl k')

theorem onward (h : Laid clean i k ts j k') : k.Onward k' := by
  induction h with
  | nil reads gap => exact reads.onward
  | cons reads gap covers spells leads rest ih => exact (reads.onward.trans covers.onward).trans ih

end Laid

/-- The error is about what is between two places of the text. -/
def Diagnostic.IsWithin (origin : Cursor) (d : Diagnostic) : Prop :=
  ∃ start stop : Cursor, origin.Onward start ∧ start.Onward stop ∧ d.span = start.spanTo stop

structure LexStep.Placed (origin : Cursor) (clean : Prop) (inside : Bool) (k : Cursor) (s : LexStep)
    (inside' : Bool) : Prop where
  tokens : Laid clean inside k s.tokens inside' s.next
  errors : ∀ d ∈ s.errors, d.IsWithin origin

section Steps

variable {origin k : Cursor} {clean : Prop}

theorem LexStep.Placed.andThen {i j l : Bool} {s t : LexStep} (h : s.Placed origin clean i k j)
    (h' : t.Placed origin clean j s.next l) : (s.andThen t).Placed origin clean i k l :=
  ⟨h.tokens.append h'.tokens, fun d hd => (List.mem_append.mp hd).elim (h.errors d) (h'.errors d)⟩

theorem LexStep.Placed.of_error {i j : Bool} {next start : Cursor} {message : String}
    (hstart : origin.Onward start) (hnext : start.Onward next) (hk : k.Onward next)
    (hclean : ¬ clean) :
    LexStep.Placed origin clean i k ⟨[], [.error (start.spanTo next) message], next⟩ j := by
  obtain ⟨run, hrun⟩ := hk.reads
  refine ⟨.nil hrun fun h => absurd h hclean, fun d hd => ?_⟩
  rw [List.mem_singleton] at hd
  subst hd
  exact ⟨start, next, hstart, hnext, rfl⟩

theorem LexStep.Placed.of_token {i j : Bool} {run : List Char} {next : Cursor} {lexeme : Lexeme}
    (reads : k.Reads run next) (spells : lexeme.Spells run) (leads : lexeme.Leads i j) :
    LexStep.Placed origin clean i k ⟨[⟨lexeme, k.spanTo next⟩], [], next⟩ j :=
  ⟨.single reads spells leads, by simp⟩

variable (clean)

theorem lexText_placed : (lexText k).Placed origin clean false k false := by
  obtain ⟨rest, hrest, -⟩ := exists_runUntil opensMarkup k.rest
  exact .of_token (Cursor.reads_skip_length hrest) (.decoded _) (.text _)

theorem lexDelimited_placed (hk : origin.Onward k) (opening : List Char) {closing rest : List Char}
    {lexeme : String → Lexeme} {message : String} (hrest : k.rest = opening ++ rest)
    (hspells : ∀ body, (lexeme body).Spells (opening ++ (body.toList ++ closing)))
    (hleads : ∀ body, (lexeme body).Leads false false)
    (hclean : clean → (lexDelimited opening.length closing lexeme message k).errors = []) :
    (lexDelimited opening.length closing lexeme message k).Placed origin clean false k false := by
  have hbody : k.rest.drop opening.length = rest := by rw [hrest, List.drop_left]
  obtain ⟨after, hafter, hlast, -⟩ := exists_runUntil closing.isPrefixOf rest
  have hwhole : k.rest = (opening ++ runUntil closing.isPrefixOf rest) ++ after := by
    rw [hrest, List.append_assoc, ← hafter]
  have hstop := Cursor.reads_skip_length hwhole
  rw [List.length_append] at hstop
  have hat : (k.skip (opening.length + (runUntil closing.isPrefixOf rest).length)).rest = after :=
    Cursor.rest_skip hwhole List.length_append.symm
  unfold lexDelimited at hclean ⊢
  rw [hbody] at hclean ⊢
  dsimp only at hclean ⊢
  split at hclean
  · rename_i hend
    rw [if_pos hend]
    exact .of_error hk hstop.onward hstop.onward fun hc => by cases hclean hc
  · rename_i hend
    rw [if_neg hend]
    have hclosing : closing.isPrefixOf after = true := by
      refine hlast.resolve_left fun hnil => hend ?_
      rw [Cursor.atEnd, hat, hnil]
      rfl
    obtain ⟨more, hmore⟩ := List.isPrefixOf_iff_prefix.mp hclosing
    have hnext := hstop.trans (Cursor.reads_skip_length (hat.trans hmore.symm))
    refine .of_token hnext ?_ (hleads _)
    have hbody := hspells (String.ofList (runUntil closing.isPrefixOf rest))
    rwa [String.toList_ofList, ← List.append_assoc] at hbody

theorem lexEndTag_placed (hk : origin.Onward k) {rest : List Char}
    (hrest : k.rest = ['<', '/'] ++ rest) (hclean : clean → (lexEndTag k).errors = []) :
    (lexEndTag k).Placed origin clean false k false := by
  have hspace := (Cursor.reads_skip_length hrest).trans (Cursor.reads_skipSpace (k.skip 2))
  have hname := hspace.trans (Cursor.reads_name _)
  have hstop := hname.trans (Cursor.reads_skipSpace _)
  unfold lexEndTag at hclean ⊢
  dsimp only at hclean ⊢
  split at hclean
  · rename_i hend
    rw [if_pos hend]
    obtain ⟨more, hmore⟩ := List.isPrefixOf_iff_prefix.mp hend
    refine .of_token (hstop.trans (Cursor.reads_skip_length hmore.symm)) ?_ (.endTag _)
    have hspells := @Lexeme.Spells.endTag (String.ofList (nameRun (k.skip 2).skipSpace))
      ((k.skip 2).rest.takeWhile isMarkupSpace)
      (((k.skip 2).skipSpace.skip (nameRun (k.skip 2).skipSpace).length).rest.takeWhile
        isMarkupSpace) fun c hc => (List.mem_append.mp hc).elim List.mem_takeWhile_imp
          List.mem_takeWhile_imp
    rw [String.toList_ofList] at hspells
    simpa using hspells
  · rename_i hend
    rw [if_neg hend]
    exact .of_error hk hstop.onward hstop.onward fun hc => by cases hclean hc

theorem lexValue_placed (hk : origin.Onward k) (hclean : clean → (lexValue k).errors = []) :
    (lexValue k).Placed origin clean true k true := by
  have hquoted : ∀ q rest, k.rest = q :: rest → (q = '"' ∨ q = '\'') →
      (clean → (lexValue.quoted k q rest).errors = []) →
      (lexValue.quoted k q rest).Placed origin clean true k true := by
    intro q rest hrest hq hclean
    have hstop := k.reads_openQuote hrest
    unfold lexValue.quoted at hclean ⊢
    dsimp only at hclean ⊢
    split at hclean
    · rename_i hend
      rw [if_pos hend]
      exact .of_error hk hstop.onward hstop.onward fun hc => by cases hclean hc
    · rename_i hend
      rw [if_neg hend]
      exact .of_token (k.reads_quoted hrest hend) (.quotedValue hq _) (.attributeValue _)
  unfold lexValue at hclean ⊢
  split at hclean
  · exact hquoted _ _ ‹_› (.inl rfl) hclean
  · exact hquoted _ _ ‹_› (.inr rfl) hclean
  · obtain ⟨rest, hrest, -⟩ := exists_runUntil endsUnquoted k.rest
    exact .of_token (Cursor.reads_skip_length hrest) (.attributeValue _) (.attributeValue _)

theorem lexAttribute_placed (hk : origin.Onward k)
    (hclean : clean → (lexAttribute k).errors = []) :
    (lexAttribute k).Placed origin clean true k true := by
  have hname := k.reads_name
  have hspells : (Lexeme.attributeName (String.ofList (nameRun k))).Spells (nameRun k) := by
    have hspells := Lexeme.Spells.attributeName (String.ofList (nameRun k))
    rwa [String.toList_ofList] at hspells
  have hspace := (k.skip (nameRun k).length).reads_skipSpace
  have hstep : LexStep.Placed origin clean true k ⟨[⟨.attributeName (String.ofList (nameRun k)),
      k.spanTo (k.skip (nameRun k).length)⟩], [], (k.skip (nameRun k).length).skipSpace⟩ true :=
    ⟨(Laid.single hname hspells (.attributeName _)).append
      (.nil hspace fun _ => ⟨isGap_space _, rfl⟩), by simp⟩
  unfold lexAttribute at hclean ⊢
  dsimp only at hclean ⊢
  split at hclean
  · rename_i hequals
    rw [if_pos hequals]
    obtain ⟨more, hmore⟩ := List.isPrefixOf_iff_prefix.mp hequals
    have hafter := (Cursor.reads_skip_length hmore.symm).trans (Cursor.reads_skipSpace _)
    have hgap : IsGap true (['='] ++
        ((k.skip (nameRun k).length).skipSpace.skip 1).rest.takeWhile isMarkupSpace) :=
      IsGap.append (fun c hc => ⟨rfl, .inr (List.mem_singleton.mp hc)⟩) (isGap_space _)
    have hvalue := lexValue_placed clean ((hk.trans hname.onward).trans
      (hspace.onward.trans hafter.onward)) fun hc => (List.append_eq_nil_iff.mp (hclean hc)).2
    exact hstep.andThen ⟨hvalue.tokens.from_earlier hafter fun _ => hgap, hvalue.errors⟩
  · rename_i hequals
    rw [if_neg hequals]
    exact hstep

theorem lexAttributes_placed (hk : origin.Onward k)
    (hclean : clean → (lexAttributes k).errors = []) :
    (lexAttributes k).Placed origin clean true k true := by
  have hnothing : ∀ k : Cursor, LexStep.Placed origin clean true k ⟨[], [], k.skipSpace⟩ true :=
    fun k => ⟨.nil k.reads_skipSpace fun _ => ⟨isGap_space _, rfl⟩, by simp⟩
  fun_induction lexAttributes k with
  | case1 k h => exact hnothing k
  | case2 k c rest h hc => exact hnothing k
  | case3 k c rest h hc he ih =>
    have hdirty : ¬ clean := fun hc => by cases hclean hc
    have hspace := hk.trans k.onward_skipSpace
    have hstray := k.skipSpace.onward_skip 1
    have hfirst : (lexStray c k.skipSpace).Placed origin clean true k true :=
      .of_error hspace hstray (k.onward_skipSpace.trans hstray) hdirty
    exact hfirst.andThen (ih (hspace.trans hstray) fun hc => absurd hc hdirty)
  | case4 k c rest h hc he ih =>
    have hfirst := lexAttribute_placed clean (hk.trans k.onward_skipSpace) fun hc =>
      (List.append_eq_nil_iff.mp (hclean hc)).1
    have hothers := ih ((hk.trans k.onward_skipSpace).trans hfirst.tokens.onward) fun hc =>
      (List.append_eq_nil_iff.mp (hclean hc)).2
    have hspaced : (lexAttribute k.skipSpace).Placed origin clean true k true :=
      ⟨hfirst.tokens.from_earlier k.reads_skipSpace fun _ => isGap_space _, hfirst.errors⟩
    exact hspaced.andThen hothers

theorem lexContent_placed (name : String) : (lexContent name k).Placed origin clean false k false := by
  have hraw : ∀ decode : List Char → List Char,
      (∀ body, (Lexeme.text (String.ofList (decode body))).Spells body) →
      (lexRawText name decode k).Placed origin clean false k false := by
    intro decode hspells
    obtain ⟨rest, hrest, -⟩ := exists_runUntil (closesRaw name) k.rest
    have hreads := Cursor.reads_skip_length hrest
    unfold lexRawText
    dsimp only
    split
    · rename_i hempty
      rw [List.isEmpty_iff] at hempty
      rw [hempty] at hreads ⊢
      exact ⟨.nil hreads fun _ => ⟨isGap_nil _, rfl⟩, by simp⟩
    · exact .of_token hreads (hspells _) (.text _)
  unfold lexContent
  split
  · exact hraw id .verbatim
  · exact hraw _ .decoded
  · exact ⟨.refl k, by simp⟩

theorem lexTagEnd_placed {start : Cursor} (name : String) (hstart : origin.Onward start)
    (hk : start.Onward k) (hclean : clean → (lexTagEnd start name k).errors = []) :
    (lexTagEnd start name k).Placed origin clean true k false := by
  unfold lexTagEnd at hclean ⊢
  split at hclean
  · rename_i hvoid
    rw [if_pos hvoid]
    obtain ⟨more, hmore⟩ := List.isPrefixOf_iff_prefix.mp hvoid
    exact .of_token (Cursor.reads_skip_length hmore.symm) .startTagEndVoid .startTagEndVoid
  · rename_i hvoid
    rw [if_neg hvoid]
    split at hclean
    · rename_i hend
      rw [if_pos hend]
      obtain ⟨more, hmore⟩ := List.isPrefixOf_iff_prefix.mp hend
      have hfirst : LexStep.Placed origin clean true k
          ⟨[⟨.startTagEnd, k.spanTo (k.skip 1)⟩], [], k.skip 1⟩ false :=
        .of_token (Cursor.reads_skip_length hmore.symm) .startTagEnd .startTagEnd
      exact hfirst.andThen (lexContent_placed clean name)
    · rename_i hend
      rw [if_neg hend]
      exact .of_error hstart hk (.refl k) fun hc => by cases hclean hc

theorem lexTagName_placed (hk : origin.Onward k) {rest : List Char} (hrest : k.rest = '<' :: rest) :
    (lexTagName k).Placed origin clean false k true := by
  have hname := (@Cursor.reads_skip_length k ['<'] _ hrest).trans (Cursor.reads_name _)
  have hstop : (k.skip ['<'].length).skip (nameRun (k.skip 1)).length =
      k.skip (1 + (nameRun (k.skip 1)).length) := by
    rw [Cursor.skip_skip]
    rfl
  have hspells := Lexeme.Spells.startTag (String.ofList (nameRun (k.skip 1)))
  rw [String.toList_ofList] at hspells
  refine ⟨.single (hstop ▸ hname) hspells (.startTag _), fun d hd => ?_⟩
  unfold lexTagName at hd
  dsimp only at hd
  split at hd
  · cases hd
  · rw [List.mem_singleton] at hd
    exact ⟨k, _, hk, k.onward_skip _, by rw [hd]; rfl⟩

theorem lexStartTag_placed (hk : origin.Onward k) {rest : List Char} (hrest : k.rest = '<' :: rest)
    (hclean : clean → (lexStartTag k).errors = []) :
    (lexStartTag k).Placed origin clean false k false := by
  have hname := lexTagName_placed clean hk hrest
  have hinside := lexAttributes_placed clean (hk.trans hname.tokens.onward) fun hc =>
    (List.append_eq_nil_iff.mp (List.append_eq_nil_iff.mp (hclean hc)).1).2
  have hend := lexTagEnd_placed clean (String.ofList (nameRun (k.skip 1))) hk
    (hname.tokens.onward.trans hinside.tokens.onward) fun hc =>
      (List.append_eq_nil_iff.mp (hclean hc)).2
  exact (hname.andThen hinside).andThen hend

theorem lexItem_placed (hk : origin.Onward k) (hclean : clean → (lexItem k).errors = []) :
    (lexItem k).Placed origin clean false k false := by
  unfold lexItem at hclean ⊢
  by_cases hopens : opensMarkup k.rest = true
  · rw [if_pos hopens] at hclean ⊢
    unfold lexMarkup at hclean ⊢
    split at hclean
    · rename_i rest hrest
      split_ifs at hclean ⊢ with hsection hcomment
      · obtain ⟨more, rfl⟩ := List.isPrefixOf_iff_prefix.mp hsection
        exact lexDelimited_placed clean hk "<![CDATA[".toList hrest (fun body => .cdata body)
          (fun body => .cdata body) hclean
      · obtain ⟨more, rfl⟩ := List.isPrefixOf_iff_prefix.mp hcomment
        exact lexDelimited_placed clean hk "<!--".toList hrest (fun body => .comment body)
          (fun body => .comment body) hclean
      · exact lexDelimited_placed clean hk "<!".toList hrest (fun body => .doctype body)
          (fun body => .doctype body) hclean
    · exact lexEndTag_placed clean hk ‹_› hclean
    · obtain ⟨c, rest, hrest, -⟩ := exists_of_opensMarkup hopens
      exact lexStartTag_placed clean hk hrest hclean
  · rw [if_neg hopens]
    exact lexText_placed clean

/-- Up to the end of the text its tokens are laid one behind the other, and the errors are about
places of it. -/
theorem lexFrom_placed (hk : origin.Onward k) (hclean : clean → (lexFrom k).2 = []) :
    (∃ last, last.rest = [] ∧ Laid clean false k (lexFrom k).1 false last) ∧
      ∀ d ∈ (lexFrom k).2, d.IsWithin origin := by
  fun_induction lexFrom k with
  | case1 k h =>
    exact ⟨⟨k, h, .single (.refl k) .endOfSource .endOfSource⟩, by simp⟩
  | case2 k h tokens errors heq ih =>
    rw [heq] at ih
    have hitem := lexItem_placed clean hk fun hc => (List.append_eq_nil_iff.mp (hclean hc)).1
    obtain ⟨⟨last, hlast, htokens⟩, herrors⟩ := ih (hk.trans hitem.tokens.onward) fun hc =>
      (List.append_eq_nil_iff.mp (hclean hc)).2
    exact ⟨⟨last, hlast, hitem.tokens.append htokens⟩, fun d hd =>
      (List.mem_append.mp hd).elim (hitem.errors d) (herrors d)⟩

end Steps

end LiveMarkup
