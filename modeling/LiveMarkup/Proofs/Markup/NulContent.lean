import LiveMarkup.Proofs.Markup.Coverage
import LiveMarkup.Proofs.Markup.LineEnds
import LiveMarkup.Proofs.Markup.Respelling

/-!
# NUL as content

A text is read as the same text with a tilde for each NUL is: the tokens and errors are at the same
places, and say a tilde where they said the NUL. Only a NUL that a reference stands for is left as it is.
-/

namespace LiveMarkup

/-! ### The exchanged text -/

/-- A tilde for a NUL. -/
def exchange (c : Char) : Char := if c = '\x00' then '~' else c

def Unexchanged (cs : List Char) : Prop := '\x00' ∉ cs ∧ '~' ∉ cs

instance (cs : List Char) : Decidable (Unexchanged cs) := inferInstanceAs (Decidable (_ ∧ _))

theorem exchange_of_ne {c : Char} (h : c ≠ '\x00') : exchange c = c := if_neg h

/-- What does not tell a tilde from a NUL does not see the exchange. -/
theorem apply_exchange {α : Type} {f : Char → α} (h : f '~' = f '\x00') (c : Char) :
    f (exchange c) = f c := by
  unfold exchange
  split
  · rename_i hc
    rw [hc, h]
  · rfl

theorem exchange_eq_iff {c d : Char} (hnul : d ≠ '\x00') (htilde : d ≠ '~') :
    exchange c = d ↔ c = d := by
  unfold exchange
  split
  · rename_i hc
    rw [hc]
    exact iff_of_false htilde.symm hnul.symm
  · rfl

theorem toLower_exchange (c : Char) : (exchange c).toLower = exchange c.toLower := by
  by_cases hc : c = '\x00'
  · subst hc
    decide
  · rw [exchange_of_ne hc, exchange_of_ne fun h => hc (eq_of_toLower_eq h (by decide))]

theorem map_exchange_of_not_mem {cs : List Char} (h : '\x00' ∉ cs) : cs.map exchange = cs :=
  (List.map_congr_left fun _ hc => exchange_of_ne fun he => h (he ▸ hc)).trans (List.map_id cs)

theorem map_exchange_eq_iff {cs ds : List Char} (h : Unexchanged ds) :
    cs.map exchange = ds ↔ cs = ds := by
  constructor
  · rintro rfl
    refine (map_exchange_of_not_mem fun hnul => h.2 ?_).symm
    exact List.mem_map.mpr ⟨_, hnul, rfl⟩
  · rintro rfl
    exact map_exchange_of_not_mem h.1

theorem isPrefixOf_map_exchange {cs ds : List Char} (h : Unexchanged ds) :
    ds.isPrefixOf (cs.map exchange) = ds.isPrefixOf cs := by
  rw [Bool.eq_iff_iff, List.isPrefixOf_iff_prefix, List.isPrefixOf_iff_prefix,
    List.prefix_iff_eq_take, List.prefix_iff_eq_take, ← List.map_take, eq_comm,
    map_exchange_eq_iff h, eq_comm]

theorem takeWhile_map_exchange {p : Char → Bool} (h : p '~' = p '\x00') (cs : List Char) :
    (cs.map exchange).takeWhile p = (cs.takeWhile p).map exchange := by
  rw [List.takeWhile_map, show p ∘ exchange = p from funext (apply_exchange h)]

theorem runUntil_map_exchange {stop : List Char → Bool}
    (h : ∀ cs, stop (cs.map exchange) = stop cs) (cs : List Char) :
    runUntil stop (cs.map exchange) = (runUntil stop cs).map exchange := by
  induction cs with
  | nil => rfl
  | cons c cs ih =>
    rw [List.map_cons, runUntil, runUntil, ← List.map_cons, h, ih]
    split <;> rfl

theorem after_map_exchange (l : Location) (cs : List Char) :
    l.after (cs.map exchange) = l.after cs := by
  unfold Location.after
  rw [List.foldl_map]
  exact congrArg (fun f => cs.foldl f l) (funext fun l => funext (apply_exchange rfl))

theorem unifyLineEnds_map_exchange (cs : List Char) :
    unifyLineEnds (cs.map exchange) = (unifyLineEnds cs).map exchange := by
  have hno : ∀ c ≠ '\r', '\r' ∉ [exchange c] := by
    intro c hc hmem
    exact hc ((exchange_eq_iff (by decide) (by decide)).mp (List.mem_singleton.mp hmem).symm)
  have hhead : ∀ c ≠ '\n', ∃ d ds, [exchange c] = d :: ds ∧ d ≠ '\n' := fun c hc =>
    ⟨_, _, rfl, fun he => hc ((exchange_eq_iff (by decide) (by decide)).mp he)⟩
  have h := unifyLineEnds_flatMap (f := fun c => [exchange c]) rfl rfl hno hhead cs
  rwa [← List.map_eq_flatMap, ← List.map_eq_flatMap] at h

namespace Reference

def exchangedChar : Piece Char → Char
  | .plain c => exchange c
  | .found c => c

/-- The text with each reference replaced by its character, and a tilde for each NUL that is no
reference. -/
def decodeExchanged (cs : List Char) : List Char := (pattern.split cs).map exchangedChar

theorem read?_map_exchange {cs rest : List Char} {c : Char} (h : read? cs = some (c, rest)) :
    read? (cs.map exchange) = some (c, rest.map exchange) := by
  obtain ⟨body, rfl, hdecode, hend, hlen⟩ := read?_eq_some h
  have hbody : body.map exchange = body := map_exchange_of_not_mem fun hnul =>
    absurd (isBodyChar_of_decodeBody? hdecode _ hnul) (by decide)
  rw [List.map_cons, List.map_append, List.map_cons, hbody]
  exact read?_of_body hdecode hend hlen _

theorem read?_map_exchange_of_none {cs : List Char} (h : read? cs = none) :
    read? (cs.map exchange) = none := by
  by_contra hsome
  obtain ⟨⟨c, rest⟩, hread⟩ := Option.ne_none_iff_exists'.mp hsome
  obtain ⟨body, hcs, hdecode, hend, hlen⟩ := read?_eq_some hread
  -- a reference has neither of the two characters, so it stands in the text as well
  obtain ⟨d, ds, rfl, hd, hds⟩ := List.map_eq_cons_iff.mp hcs
  obtain ⟨body', after, rfl, hbody, hafter⟩ := List.map_eq_append_iff.mp hds
  obtain ⟨d', after', rfl, hd', -⟩ := List.map_eq_cons_iff.mp hafter
  have hplain : Unexchanged body :=
    ⟨fun hmem => absurd (isBodyChar_of_decodeBody? hdecode _ hmem) (by decide),
      fun hmem => absurd (isBodyChar_of_decodeBody? hdecode _ hmem) (by decide)⟩
  rw [(exchange_eq_iff (by decide) (by decide)).mp hd, (map_exchange_eq_iff hplain).mp hbody,
    (exchange_eq_iff (by decide) (by decide)).mp hd', read?_of_body hdecode hend hlen] at h
  cases h

theorem decodeExchanged_of_read? {cs rest : List Char} {c : Char} (h : read? cs = some (c, rest)) :
    decodeExchanged cs = c :: decodeExchanged rest := by
  rw [decodeExchanged, Pattern.split_of_read? (p := pattern) h, List.map_cons]
  rfl

theorem decodeExchanged_cons_of_none {c : Char} {cs : List Char} (h : read? (c :: cs) = none) :
    decodeExchanged (c :: cs) = exchange c :: decodeExchanged cs := by
  rw [decodeExchanged, Pattern.split_cons_of_none (p := pattern) h, List.map_cons]
  rfl

theorem decodeExchanged_nil : decodeExchanged [] = [] := by
  rw [decodeExchanged, Pattern.split_nil, List.map_nil]

theorem decode_map_exchange (cs : List Char) : decode (cs.map exchange) = decodeExchanged cs := by
  induction cs using decode_induction with
  | nil => rw [List.map_nil, decode_nil, decodeExchanged_nil]
  | reference cs c rest hr ih =>
    rw [decode_of_read? (read?_map_exchange hr), ih, decodeExchanged_of_read? hr]
  | char c cs hr ih =>
    have hr' := read?_map_exchange_of_none hr
    rw [List.map_cons] at hr' ⊢
    rw [decode_cons_of_none hr', ih, decodeExchanged_cons_of_none hr]

/-- A reference in the text stands for a NUL. -/
def SaysNul (cs : List Char) : Prop := ∃ s rest, s <:+ cs ∧ read? s = some ('\x00', rest)

theorem SaysNul.of_infix {cs part : List Char} (h : SaysNul part) (hpart : part <:+: cs) :
    SaysNul cs := by
  obtain ⟨s, rest, hs, hread⟩ := h
  obtain ⟨s', rest', hs', hread'⟩ := exists_read?_of_infix hpart hs hread
  exact ⟨s', rest', hs', hread'⟩

/-- Where no reference stands for a NUL, the exchange may as well come after the references. -/
theorem decodeExchanged_eq {cs : List Char} (h : ¬ SaysNul cs) :
    decodeExchanged cs = (decode cs).map exchange := by
  induction cs using decode_induction with
  | nil => rw [decodeExchanged_nil, decode_nil, List.map_nil]
  | reference cs c rest hr ih =>
    have hc : c ≠ '\x00' := by
      rintro rfl
      exact h ⟨cs, rest, List.suffix_refl cs, hr⟩
    rw [decodeExchanged_of_read? hr, decode_of_read? hr, List.map_cons, exchange_of_ne hc,
      ih fun hrest => h (hrest.of_infix (suffix_of_read? hr).isInfix)]
  | char c cs hr ih =>
    rw [decodeExchanged_cons_of_none hr, decode_cons_of_none hr, List.map_cons,
      ih fun hcs => h (hcs.of_infix (List.suffix_cons c cs).isInfix)]

end Reference

/-! ### Cursors and tokens -/

theorem ofList_map_exchange (cs : List Char) :
    String.ofList (cs.map exchange) = (String.ofList cs).map exchange := by
  rw [← String.toList_inj, String.toList_map, String.toList_ofList, String.toList_ofList]

theorem string_map_exchange_of_not_mem {s : String} (h : '\x00' ∉ s.toList) : s.map exchange = s := by
  rw [← String.toList_inj, String.toList_map, map_exchange_of_not_mem h]

theorem map_exchange_quoted {before after : String} (hbefore : '\x00' ∉ before.toList)
    (hafter : '\x00' ∉ after.toList) (name : String) :
    (before ++ name ++ after).map exchange = before ++ name.map exchange ++ after := by
  rw [← String.toList_inj]
  simp [map_exchange_of_not_mem hbefore, map_exchange_of_not_mem hafter]

def Cursor.exchanged (k : Cursor) : Cursor := ⟨k.location, k.rest.map exchange⟩

namespace Cursor

variable (k : Cursor)

@[simp] theorem rest_exchanged : k.exchanged.rest = k.rest.map exchange := rfl

@[simp] theorem spanTo_exchanged (stop : Cursor) :
    k.exchanged.spanTo stop.exchanged = k.spanTo stop := rfl

@[simp] theorem skip_exchanged (n : Nat) : k.exchanged.skip n = (k.skip n).exchanged := by
  rw [skip, skip, exchanged, exchanged, ← List.map_take, ← List.map_drop, after_map_exchange]

@[simp] theorem skipSpace_exchanged : k.exchanged.skipSpace = k.skipSpace.exchanged := by
  rw [skipSpace, rest_exchanged, takeWhile_map_exchange rfl, List.length_map, skip_exchanged,
    skipSpace]

@[simp] theorem atEnd_exchanged : k.exchanged.atEnd = k.atEnd := by
  rw [atEnd, atEnd, rest_exchanged, List.isEmpty_map]

theorem startsWith_exchanged (cs : List Char) (h : Unexchanged cs) :
    k.exchanged.startsWith cs = k.startsWith cs := isPrefixOf_map_exchange h

end Cursor

@[simp] theorem nameRun_exchanged (k : Cursor) :
    nameRun k.exchanged = (nameRun k).map exchange := takeWhile_map_exchange rfl k.rest

/-- What the two tokens say is read from these characters, the one from them as they are and the other
from the exchanged ones. -/
inductive Lexeme.Exchanges (raw : List Char) : Lexeme → Lexeme → Prop where
  | startTag (name : String) : Exchanges raw (.startTag name) (.startTag (name.map exchange))
  | attributeName (name : String) :
      Exchanges raw (.attributeName name) (.attributeName (name.map exchange))
  | attributeValue {body : List Char}
      (spelled : raw = body ∨ ∃ quote ∈ ['"', '\''], raw = quote :: (body ++ [quote])) :
      Exchanges raw (.attributeValue (String.ofList (Reference.decode body)))
        (.attributeValue (String.ofList (Reference.decodeExchanged body)))
  | startTagEnd : Exchanges raw .startTagEnd .startTagEnd
  | startTagEndVoid : Exchanges raw .startTagEndVoid .startTagEndVoid
  | endTag (name : String) : Exchanges raw (.endTag name) (.endTag (name.map exchange))
  | verbatim : Exchanges raw (.text (String.ofList raw)) (.text (String.ofList (raw.map exchange)))
  | decoded :
      Exchanges raw (.text (String.ofList (Reference.decode raw)))
        (.text (String.ofList (Reference.decodeExchanged raw)))
  | comment (body : String) : Exchanges raw (.comment body) (.comment (body.map exchange))
  | cdata (body : String) : Exchanges raw (.cdata body) (.cdata (body.map exchange))
  | doctype (body : String) : Exchanges raw (.doctype body) (.doctype (body.map exchange))
  | endOfSource : Exchanges raw .endOfSource .endOfSource

def Diagnostic.exchanged (d : Diagnostic) : Diagnostic := { d with message := d.message.map exchange }

structure Token.Exchanges (origin : Cursor) (t t' : Token) : Prop where
  span : t'.span = t.span
  lexeme : ∃ (start stop : Cursor) (raw : List Char), origin.Onward start ∧ start.Reads raw stop ∧
    t.span = start.spanTo stop ∧ t.lexeme.Exchanges raw t'.lexeme

structure LexStep.Exchanges (origin : Cursor) (s s' : LexStep) : Prop where
  onward : origin.Onward s.next
  tokens : List.Forall₂ (Token.Exchanges origin) s.tokens s'.tokens
  errors : s'.errors = s.errors.map .exchanged
  next : s'.next = s.next.exchanged

namespace LexStep.Exchanges

variable {origin k : Cursor}

theorem andThen {s s' t t' : LexStep} (h : s.Exchanges origin s') (h' : t.Exchanges origin t') :
    (s.andThen t).Exchanges origin (s'.andThen t') where
  onward := h'.onward
  tokens := List.rel_append h.tokens h'.tokens
  errors := by rw [LexStep.andThen, LexStep.andThen, h.errors, h'.errors, List.map_append]
  next := h'.next

theorem nothing (hk : origin.Onward k) : LexStep.Exchanges origin ⟨[], [], k⟩ ⟨[], [], k.exchanged⟩ :=
  ⟨hk, .nil, rfl, rfl⟩

theorem of_error {start next : Cursor} {message message' : String} (hnext : origin.Onward next)
    (hmessage : message' = message.map exchange) :
    LexStep.Exchanges origin ⟨[], [.error (start.spanTo next) message], next⟩
      ⟨[], [.error (start.spanTo next) message'], next.exchanged⟩ :=
  ⟨hnext, .nil, by rw [hmessage]; rfl, rfl⟩

theorem of_token {stop next : Cursor} {raw : List Char} {lexeme lexeme' : Lexeme}
    (hk : origin.Onward k) (hraw : k.Reads raw stop) (hnext : origin.Onward next)
    (h : lexeme.Exchanges raw lexeme') :
    LexStep.Exchanges origin ⟨[⟨lexeme, k.spanTo stop⟩], [], next⟩
      ⟨[⟨lexeme', k.spanTo stop⟩], [], next.exchanged⟩ :=
  ⟨hnext, .cons ⟨rfl, k, stop, raw, hk, hraw, rfl, h⟩ .nil, rfl, rfl⟩

theorem of_part {next : Cursor} {lexeme lexeme' : Lexeme} (hk : origin.Onward k)
    (hnext : k.Onward next) (h : ∀ raw, lexeme.Exchanges raw lexeme') :
    LexStep.Exchanges origin ⟨[⟨lexeme, k.spanTo next⟩], [], next⟩
      ⟨[⟨lexeme', k.spanTo next⟩], [], next.exchanged⟩ := by
  obtain ⟨raw, hraw⟩ := hnext.reads
  exact of_token hk hraw (hk.trans hnext) (h raw)

end LexStep.Exchanges

theorem opensMarkup_map_exchange (cs : List Char) :
    opensMarkup (cs.map exchange) = opensMarkup cs := by
  match cs with
  | [] => rfl
  | [c] =>
    rw [List.map_singleton, opensMarkup, opensMarkup]
    all_goals simp
  | c :: d :: rest =>
    rw [List.map_cons]
    by_cases hc : c = '<'
    · subst hc
      exact apply_exchange (f := fun d => d.isAlpha || d = '/' || d = '!') rfl d
    · have hc' : exchange c ≠ '<' := fun h => hc ((exchange_eq_iff (by decide) (by decide)).mp h)
      rw [not_opensMarkup hc, not_opensMarkup hc']

theorem closesTag_exchange (c : Char) (rest : List Char) :
    (decide (exchange c = '>') || decide (exchange c = '/') &&
      ['>'].isPrefixOf (rest.map exchange)) =
      (decide (c = '>') || decide (c = '/') && ['>'].isPrefixOf rest) := by
  rw [isPrefixOf_map_exchange (by decide), apply_exchange (f := fun c => decide (c = '>')) rfl,
    apply_exchange (f := fun c => decide (c = '/')) rfl]

theorem endsUnquoted_map_exchange (cs : List Char) :
    endsUnquoted (cs.map exchange) = endsUnquoted cs := by
  cases cs with
  | nil => rfl
  | cons c cs =>
    rw [List.map_cons, endsUnquoted, endsUnquoted, Bool.or_assoc, Bool.or_assoc, closesTag_exchange,
      apply_exchange (f := isMarkupSpace) rfl]

theorem unexchanged_of_raw {name : String} (h : tagContent name ≠ .markup) :
    Unexchanged name.toList := by
  have named := isTagName_of_raw h
  exact ⟨fun hmem => absurd (named.valid _ hmem) (by decide),
    fun hmem => absurd (named.valid _ hmem) (by decide)⟩

theorem map_exchange_of_raw {name : String} (h : tagContent name ≠ .markup) :
    name.map exchange = name := string_map_exchange_of_not_mem (unexchanged_of_raw h).1

theorem tagContent_map_exchange (name : String) :
    tagContent (name.map exchange) = tagContent name := by
  by_cases hname : tagContent name = .markup
  · by_contra hne
    -- a raw name has letters only, so it is the name before the exchange
    have hraw : tagContent (name.map exchange) ≠ .markup := by rwa [hname] at hne
    have hplain := unexchanged_of_raw hraw
    rw [String.toList_map] at hplain
    have hsame := (map_exchange_eq_iff hplain).mp rfl
    refine hne (congrArg tagContent ?_)
    rw [← String.toList_inj, String.toList_map]
    exact hsame.symm
  · rw [map_exchange_of_raw hname]

theorem closesRaw_map_exchange {name : String} (h : tagContent name ≠ .markup) (cs : List Char) :
    closesRaw name (cs.map exchange) = closesRaw name cs := by
  have hnames : ∀ s ∈ ["script", "style", "textarea", "title"],
      Unexchanged ('<' :: '/' :: s.toList) := by
    simp [Unexchanged]
  have hplain := hnames _ (toLower_of_raw h)
  have hlower : Char.toLower ∘ exchange = exchange ∘ Char.toLower := funext toLower_exchange
  unfold closesRaw
  dsimp only
  rw [← List.map_take, List.map_map, hlower, ← List.map_map, Bool.eq_iff_iff, beq_iff_eq, beq_iff_eq,
    map_exchange_eq_iff hplain]

section Steps

variable {origin k : Cursor}

theorem lexText_exchanges (hk : origin.Onward k) :
    (lexText k).Exchanges origin (lexText k.exchanged) := by
  obtain ⟨rest, hrest, -⟩ := exists_runUntil opensMarkup k.rest
  have hreads := Cursor.reads_skip_length hrest
  unfold lexText
  dsimp only
  rw [Cursor.rest_exchanged, runUntil_map_exchange opensMarkup_map_exchange, List.length_map,
    Cursor.skip_exchanged, Cursor.spanTo_exchanged, Reference.decode_map_exchange]
  exact .of_token hk hreads (hk.trans hreads.onward) .decoded

theorem lexDelimited_exchanges (hk : origin.Onward k) (opening : Nat) {closing : List Char}
    {lexeme : String → Lexeme} {message : String} (hclosing : Unexchanged closing)
    (hmessage : '\x00' ∉ message.toList)
    (hlexeme : ∀ raw body, (lexeme body).Exchanges raw (lexeme (body.map exchange))) :
    (lexDelimited opening closing lexeme message k).Exchanges origin
      (lexDelimited opening closing lexeme message k.exchanged) := by
  have hsame : message = message.map exchange := (string_map_exchange_of_not_mem hmessage).symm
  unfold lexDelimited
  dsimp only
  rw [Cursor.rest_exchanged, ← List.map_drop, runUntil_map_exchange fun cs =>
    isPrefixOf_map_exchange hclosing, List.length_map, Cursor.skip_exchanged, Cursor.atEnd_exchanged]
  split
  · exact .of_error (hk.trans (k.onward_skip _)) hsame
  · rw [Cursor.skip_exchanged, Cursor.spanTo_exchanged, ofList_map_exchange]
    exact .of_part hk ((k.onward_skip _).trans (Cursor.onward_skip _ _)) fun raw => hlexeme raw _

theorem lexEndTag_exchanges (hk : origin.Onward k) :
    (lexEndTag k).Exchanges origin (lexEndTag k.exchanged) := by
  have hstart : k.Onward (k.skip 2).skipSpace := (k.onward_skip 2).trans (Cursor.onward_skipSpace _)
  unfold lexEndTag
  dsimp only
  simp only [Cursor.skip_exchanged, Cursor.skipSpace_exchanged, nameRun_exchanged, List.length_map,
    Cursor.startsWith_exchanged _ ['>'] (by decide), Cursor.spanTo_exchanged]
  generalize hstop : ((k.skip 2).skipSpace.skip (nameRun (k.skip 2).skipSpace).length).skipSpace = stop
  have hstop : k.Onward stop := hstop ▸
    (hstart.trans (Cursor.onward_skip _ _)).trans (Cursor.onward_skipSpace _)
  split
  · rw [ofList_map_exchange]
    exact .of_part hk (hstop.trans (stop.onward_skip 1)) fun raw => .endTag _
  · rw [ofList_map_exchange, ← map_exchange_quoted (by decide) (by decide)]
    exact .of_error (hk.trans hstop) rfl

theorem quote_ne {quote : Char} (h : quote ∈ ['"', '\'']) : quote ≠ '\x00' ∧ quote ≠ '~' := by
  simp only [List.mem_cons, List.not_mem_nil, or_false] at h
  rcases h with rfl | rfl <;> decide

theorem lexValue_quoted_exchanges (hk : origin.Onward k) {quote : Char}
    (hquote : quote ∈ ['"', '\'']) {rest : List Char} (hrest : k.rest = quote :: rest) :
    (lexValue.quoted k quote rest).Exchanges origin
      (lexValue.quoted k.exchanged quote (rest.map exchange)) := by
  have hsame : ('~' != quote) = ('\x00' != quote) := by
    obtain ⟨hnul, htilde⟩ := quote_ne hquote
    rw [bne_iff_ne.mpr hnul.symm, bne_iff_ne.mpr htilde.symm]
  unfold lexValue.quoted
  dsimp only
  rw [takeWhile_map_exchange (p := (· != quote)) hsame, List.length_map, Cursor.skip_exchanged,
    Cursor.atEnd_exchanged]
  split
  · exact .of_error (hk.trans (k.onward_skip _)) (string_map_exchange_of_not_mem (by decide)).symm
  · rename_i hend
    have hreads := k.reads_quoted hrest hend
    rw [Cursor.skip_exchanged, Cursor.spanTo_exchanged, attributeValue, attributeValue,
      Reference.decode_map_exchange]
    exact .of_token hk hreads (hk.trans hreads.onward) (.attributeValue (.inr ⟨quote, hquote, rfl⟩))

theorem lexValue_of_no_quote (h : ∀ quote ∈ ['"', '\''], ∀ rest, k.rest ≠ quote :: rest) :
    lexValue k = ⟨[attributeValue (runUntil endsUnquoted k.rest)
      (k.spanTo (k.skip (runUntil endsUnquoted k.rest).length))], [],
        k.skip (runUntil endsUnquoted k.rest).length⟩ := by
  unfold lexValue
  split
  · exact absurd ‹_› (h _ (by simp) _)
  · exact absurd ‹_› (h _ (by simp) _)
  · rfl

theorem lexValue_of_quote {quote : Char} (hquote : quote ∈ ['"', '\'']) {rest : List Char}
    (hrest : k.rest = quote :: rest) : lexValue k = lexValue.quoted k quote rest := by
  simp only [List.mem_cons, List.not_mem_nil, or_false] at hquote
  unfold lexValue
  rw [hrest]
  rcases hquote with rfl | rfl <;> rfl

theorem lexValue_exchanges (hk : origin.Onward k) :
    (lexValue k).Exchanges origin (lexValue k.exchanged) := by
  by_cases hquoted : ∃ quote ∈ ['"', '\''], ∃ rest, k.rest = quote :: rest
  · obtain ⟨quote, hquote, rest, hrest⟩ := hquoted
    have hexchanged : k.exchanged.rest = quote :: rest.map exchange := by
      rw [Cursor.rest_exchanged, hrest, List.map_cons, exchange_of_ne (quote_ne hquote).1]
    rw [lexValue_of_quote hquote hrest, lexValue_of_quote hquote hexchanged]
    exact lexValue_quoted_exchanges hk hquote hrest
  · have hno : ∀ quote ∈ ['"', '\''], ∀ rest, k.rest ≠ quote :: rest := fun quote hquote rest h =>
      hquoted ⟨quote, hquote, rest, h⟩
    have hno' : ∀ quote ∈ ['"', '\''], ∀ rest, k.exchanged.rest ≠ quote :: rest := by
      intro quote hquote rest h
      obtain ⟨c, cs, hrest, hc, -⟩ := List.map_eq_cons_iff.mp h
      obtain ⟨hnul, htilde⟩ := quote_ne hquote
      rw [(exchange_eq_iff hnul htilde).mp hc] at hrest
      exact hno quote hquote cs hrest
    obtain ⟨rest, hrest, -⟩ := exists_runUntil endsUnquoted k.rest
    have hreads := Cursor.reads_skip_length hrest
    rw [lexValue_of_no_quote hno, lexValue_of_no_quote hno', Cursor.rest_exchanged,
      runUntil_map_exchange endsUnquoted_map_exchange, List.length_map, Cursor.skip_exchanged,
      Cursor.spanTo_exchanged, attributeValue, attributeValue, Reference.decode_map_exchange]
    exact .of_token hk hreads (hk.trans hreads.onward) (.attributeValue (.inl rfl))

theorem lexAttribute_exchanges (hk : origin.Onward k) :
    (lexAttribute k).Exchanges origin (lexAttribute k.exchanged) := by
  have hname := k.reads_name
  have hstep : LexStep.Exchanges origin
      ⟨[⟨.attributeName (String.ofList (nameRun k)), k.spanTo (k.skip (nameRun k).length)⟩], [],
        (k.skip (nameRun k).length).skipSpace⟩
      ⟨[⟨.attributeName ((String.ofList (nameRun k)).map exchange),
        k.spanTo (k.skip (nameRun k).length)⟩], [],
        (k.skip (nameRun k).length).skipSpace.exchanged⟩ :=
    .of_token hk hname ((hk.trans hname.onward).trans (Cursor.onward_skipSpace _)) (.attributeName _)
  unfold lexAttribute
  dsimp only
  rw [nameRun_exchanged, List.length_map, Cursor.skip_exchanged, Cursor.skipSpace_exchanged,
    Cursor.startsWith_exchanged _ _ (by decide), Cursor.spanTo_exchanged, ofList_map_exchange,
    Cursor.skip_exchanged, Cursor.skipSpace_exchanged]
  split
  · exact hstep.andThen (lexValue_exchanges
      ((hstep.onward.trans (Cursor.onward_skip _ _)).trans (Cursor.onward_skipSpace _)))
  · exact hstep

theorem lexStray_exchanges (hk : origin.Onward k) (c : Char) :
    (lexStray c k).Exchanges origin (lexStray (exchange c) k.exchanged) := by
  unfold lexStray
  dsimp only
  rw [Cursor.skip_exchanged, Cursor.spanTo_exchanged]
  refine .of_error (hk.trans (k.onward_skip 1)) ?_
  rw [map_exchange_quoted (by decide) (by decide), ← ofList_map_exchange, List.map_singleton]

theorem lexAttributes_exchanges (hk : origin.Onward k) :
    (lexAttributes k).Exchanges origin (lexAttributes k.exchanged) := by
  have hrest : ∀ {k : Cursor} {c : Char} {rest : List Char}, k.skipSpace.rest = c :: rest →
      k.exchanged.skipSpace.rest = exchange c :: rest.map exchange := by
    intro k c rest h
    rw [Cursor.skipSpace_exchanged, Cursor.rest_exchanged, h, List.map_cons]
  -- in each case the run over the exchanged text takes the branch of the run over the text
  fun_induction lexAttributes k with
  | case1 k h =>
    rw [lexAttributes_nil (by rw [Cursor.skipSpace_exchanged, Cursor.rest_exchanged, h, List.map_nil]),
      Cursor.skipSpace_exchanged]
    exact .nothing (hk.trans k.onward_skipSpace)
  | case2 k c rest h hc =>
    rw [lexAttributes_cons (hrest h), closesTag_exchange, if_pos hc, Cursor.skipSpace_exchanged]
    exact .nothing (hk.trans k.onward_skipSpace)
  | case3 k c rest h hc he ih =>
    have hfirst := lexStray_exchanges (hk.trans k.onward_skipSpace) c
    have hothers := ih hfirst.onward
    rw [← hfirst.next] at hothers
    rw [lexAttributes_cons (hrest h), closesTag_exchange, if_neg hc,
      apply_exchange (f := endsName) rfl, if_pos he, Cursor.skipSpace_exchanged]
    exact hfirst.andThen hothers
  | case4 k c rest h hc he ih =>
    have hfirst := lexAttribute_exchanges (hk.trans k.onward_skipSpace)
    have hothers := ih hfirst.onward
    rw [← hfirst.next] at hothers
    rw [lexAttributes_cons (hrest h), closesTag_exchange, if_neg hc,
      apply_exchange (f := endsName) rfl, if_neg he, Cursor.skipSpace_exchanged]
    exact hfirst.andThen hothers

theorem lexRawText_exchanges (hk : origin.Onward k) {name : String} (raw : tagContent name ≠ .markup)
    {decode : List Char → List Char}
    (hdecode : ∀ body, (Lexeme.text (String.ofList (decode body))).Exchanges body
      (.text (String.ofList (decode (body.map exchange))))) :
    (lexRawText name decode k).Exchanges origin (lexRawText name decode k.exchanged) := by
  obtain ⟨rest, hrest, -⟩ := exists_runUntil (closesRaw name) k.rest
  have hreads := Cursor.reads_skip_length hrest
  unfold lexRawText
  dsimp only
  rw [Cursor.rest_exchanged, runUntil_map_exchange (closesRaw_map_exchange raw), List.length_map,
    Cursor.skip_exchanged, Cursor.spanTo_exchanged, List.isEmpty_map]
  split
  · exact .nothing (hk.trans hreads.onward)
  · exact .of_token hk hreads (hk.trans hreads.onward) (hdecode _)

theorem lexContent_exchanges (hk : origin.Onward k) (name : String) :
    (lexContent name k).Exchanges origin (lexContent (name.map exchange) k.exchanged) := by
  by_cases hmarkup : tagContent name = .markup
  · rw [lexContent_of_markup hmarkup,
      lexContent_of_markup ((tagContent_map_exchange name).trans hmarkup)]
    exact .nothing hk
  · rw [map_exchange_of_raw hmarkup]
    unfold lexContent
    split
    · exact lexRawText_exchanges hk hmarkup fun body => .verbatim
    · refine lexRawText_exchanges hk hmarkup fun body => ?_
      rw [Reference.decode_map_exchange]
      exact .decoded
    · exact .nothing hk

theorem lexTagEnd_exchanges (start : Cursor) (hk : origin.Onward k) (name : String) :
    (lexTagEnd start name k).Exchanges origin
      (lexTagEnd start.exchanged (name.map exchange) k.exchanged) := by
  unfold lexTagEnd
  dsimp only
  simp only [Cursor.startsWith_exchanged _ ['/', '>'] (by decide),
    Cursor.startsWith_exchanged _ ['>'] (by decide), Cursor.skip_exchanged,
    Cursor.spanTo_exchanged]
  split
  · exact .of_part hk (k.onward_skip 2) fun raw => .startTagEndVoid
  · split
    · have hend : LexStep.Exchanges origin
          ⟨[⟨.startTagEnd, k.spanTo (k.skip 1)⟩], [], k.skip 1⟩
          ⟨[⟨.startTagEnd, k.spanTo (k.skip 1)⟩], [], (k.skip 1).exchanged⟩ :=
        .of_part hk (k.onward_skip 1) fun raw => .startTagEnd
      exact hend.andThen (lexContent_exchanges hend.onward name)
    · rw [← map_exchange_quoted (by decide) (by decide)]
      exact .of_error hk rfl

theorem lexTagName_exchanges (hk : origin.Onward k) :
    (lexTagName k).Exchanges origin (lexTagName k.exchanged) := by
  have hstop := hk.trans (k.onward_skip (1 + (nameRun (k.skip 1)).length))
  obtain ⟨raw, hraw⟩ := (k.onward_skip (1 + (nameRun (k.skip 1)).length)).reads
  have hname := LexStep.Exchanges.of_token hk hraw hstop
    (.startTag (String.ofList (nameRun (k.skip 1))))
  have hvalid : ((nameRun (k.skip 1)).map exchange).all isTagNameChar =
      (nameRun (k.skip 1)).all isTagNameChar := by
    rw [List.all_map, show isTagNameChar ∘ exchange = isTagNameChar from
      funext (apply_exchange rfl)]
  unfold lexTagName
  dsimp only
  rw [Cursor.skip_exchanged, nameRun_exchanged, List.length_map, Cursor.skip_exchanged,
    Cursor.spanTo_exchanged, ofList_map_exchange, hvalid]
  refine ⟨hname.onward, hname.tokens, ?_, hname.next⟩
  split
  · rfl
  · rw [← map_exchange_quoted (by decide) (by decide)]
    rfl

theorem lexStartTag_exchanges (hk : origin.Onward k) :
    (lexStartTag k).Exchanges origin (lexStartTag k.exchanged) := by
  have hname := lexTagName_exchanges hk
  have hinside := lexAttributes_exchanges hname.onward
  have hend := lexTagEnd_exchanges k hinside.onward
    (String.ofList (nameRun (k.skip 1)))
  rw [← hname.next] at hinside
  rw [← hinside.next] at hend
  unfold lexStartTag
  dsimp only
  rw [Cursor.skip_exchanged, nameRun_exchanged, ofList_map_exchange]
  exact (hname.andThen hinside).andThen hend

theorem lexMarkup_of_bang {rest : List Char} (h : k.rest = '<' :: '!' :: rest) :
    lexMarkup k =
      if "[CDATA[".toList.isPrefixOf rest then
        lexDelimited 9 "]]>".toList .cdata "Unterminated CDATA section" k
      else if "--".toList.isPrefixOf rest then
        lexDelimited 4 "-->".toList .comment "Unterminated comment" k
      else lexDelimited 2 ">".toList .doctype "Unterminated doctype" k := by
  rw [lexMarkup, h]
  rfl

theorem lexItem_exchanges (hk : origin.Onward k) :
    (lexItem k).Exchanges origin (lexItem k.exchanged) := by
  by_cases hopens : opensMarkup k.rest = true
  · obtain ⟨c, rest, hrest, hc⟩ := exists_of_opensMarkup hopens
    have hrest' : k.exchanged.rest = '<' :: exchange c :: rest.map exchange := by
      rw [Cursor.rest_exchanged, hrest]
      rfl
    rcases hc with halpha | rfl | rfl
    · rw [lexItem_of_isAlpha hrest halpha,
        lexItem_of_isAlpha hrest' ((apply_exchange (f := Char.isAlpha) rfl c).trans halpha)]
      exact lexStartTag_exchanges hk
    · rw [lexItem_of_slash hrest, lexItem_of_slash hrest']
      exact lexEndTag_exchanges hk
    · have hopens' : opensMarkup k.exchanged.rest = true :=
        (opensMarkup_map_exchange k.rest).trans hopens
      rw [lexItem, if_pos hopens, lexItem, if_pos hopens', lexMarkup_of_bang hrest,
        lexMarkup_of_bang hrest', isPrefixOf_map_exchange (by decide),
        isPrefixOf_map_exchange (by decide)]
      split_ifs
      · exact lexDelimited_exchanges hk 9 (by decide) (by decide) fun raw => .cdata
      · exact lexDelimited_exchanges hk 4 (by decide) (by decide) fun raw => .comment
      · exact lexDelimited_exchanges hk 2 (by decide) (by decide) fun raw => .doctype
  · have hopens' : ¬ opensMarkup k.exchanged.rest = true := by
      rwa [Cursor.rest_exchanged, opensMarkup_map_exchange]
    rw [lexItem, if_neg hopens, lexItem, if_neg hopens']
    exact lexText_exchanges hk

/-- The exchanged text is read step by step as the text is. -/
theorem lexFrom_exchanges (hk : origin.Onward k) :
    List.Forall₂ (Token.Exchanges origin) (lexFrom k).1 (lexFrom k.exchanged).1 ∧
      (lexFrom k.exchanged).2 = (lexFrom k).2.map .exchanged := by
  fun_induction lexFrom k with
  | case1 k h =>
    have hrest : k.exchanged.rest = [] := by rw [Cursor.rest_exchanged, h, List.map_nil]
    rw [lexFrom, dif_pos hrest, Cursor.spanTo_exchanged]
    exact ⟨.cons ⟨rfl, k, k, [], hk, .refl k, rfl, .endOfSource⟩ .nil, rfl⟩
  | case2 k h tokens errors heq ih =>
    have hitem := lexItem_exchanges hk
    obtain ⟨htokens, herrors⟩ := ih hitem.onward
    rw [heq, ← hitem.next] at htokens herrors
    rw [lexFrom_of_ne_nil (k := k.exchanged) (by simpa using h), herrors, hitem.errors, List.map_append]
    exact ⟨List.rel_append hitem.tokens htokens, rfl⟩

theorem lexFrom_ends (k : Cursor) : ∃ ts last,
    (lexFrom k).1 = ts ++ [⟨.endOfSource, last.spanTo last⟩] ∧ k.Onward last ∧ last.rest = [] := by
  fun_induction lexFrom k with
  | case1 k h => exact ⟨[], k, rfl, .refl k, h⟩
  | case2 k h tokens errors heq ih =>
    obtain ⟨ts, last, htokens, hlast, hend⟩ := ih
    rw [heq] at htokens
    dsimp only at htokens
    rw [htokens, ← List.append_assoc]
    exact ⟨_, last, rfl, (lexItem_exchanges (.refl k)).onward.trans hlast, hend⟩

end Steps

/-! ### The whole text -/

/-- The lexeme with a tilde for each NUL in what it says. -/
def Lexeme.exchanged : Lexeme → Lexeme
  | .startTag name => .startTag (name.map exchange)
  | .attributeName name => .attributeName (name.map exchange)
  | .attributeValue value => .attributeValue (value.map exchange)
  | .startTagEnd => .startTagEnd
  | .startTagEndVoid => .startTagEndVoid
  | .endTag name => .endTag (name.map exchange)
  | .text value => .text (value.map exchange)
  | .comment value => .comment (value.map exchange)
  | .cdata value => .cdata (value.map exchange)
  | .doctype value => .doctype (value.map exchange)
  | .endOfSource => .endOfSource

def Token.exchanged (t : Token) : Token := { t with lexeme := t.lexeme.exchanged }

theorem Lexeme.Exchanges.eq_exchanged {raw : List Char} {l l' : Lexeme} (h : l.Exchanges raw l')
    (hraw : ¬ Reference.SaysNul raw) : l' = l.exchanged := by
  cases h with
  | @attributeValue body spelled =>
    have hbody : body <:+: raw := by
      rcases spelled with rfl | ⟨quote, -, rfl⟩
      · exact List.infix_rfl
      · exact ⟨[quote], [quote], rfl⟩
    rw [Reference.decodeExchanged_eq fun h => hraw (h.of_infix hbody), ofList_map_exchange]
    rfl
  | verbatim => rw [ofList_map_exchange]; rfl
  | decoded => rw [Reference.decodeExchanged_eq hraw, ofList_map_exchange]; rfl
  | _ => rfl

theorem Token.Exchanges.eq_exchanged {origin : Cursor} {t t' : Token} (h : t.Exchanges origin t')
    (hno : ¬ Reference.SaysNul origin.rest) : t' = t.exchanged := by
  obtain ⟨start, stop, raw, hstart, hraw, -, hlexeme⟩ := h.lexeme
  obtain ⟨before, hbefore⟩ := hstart.reads
  have hin : raw <:+: origin.rest := by
    rw [(hbefore.trans hraw).rest]
    exact ⟨before, stop.rest, rfl⟩
  have hsame := hlexeme.eq_exchanged fun hnul => hno (hnul.of_infix hin)
  obtain ⟨l, span⟩ := t
  obtain ⟨l', span'⟩ := t'
  rw [Token.exchanged, ← hsame]
  exact congrArg (Token.mk l') h.span

/-- The exchanged text is read as the text is. The tokens have the same spans and say what is there in the
exchanged text, where a NUL that a reference stands for is left. -/
structure Lexed.Exchanges (lexed lexed' : Lexed) : Prop where
  source : lexed'.source = ⟨lexed.source.url, lexed.source.content.map exchange⟩
  tokens : List.Forall₂ (fun t t' => t'.span = t.span ∧
    t.lexeme.Exchanges (lexed.source.text t.span).toList t'.lexeme) lexed.tokens lexed'.tokens
  errors : lexed'.errors = lexed.errors.map .exchanged
  /-- Where no reference stands for a NUL the tokens are the same but for the exchange. -/
  exact : ¬ Reference.SaysNul lexed.source.content.toList →
    lexed'.tokens = lexed.tokens.map .exchanged

/-- The text is read up to its end and no further. -/
structure Lexed.Complete (lexed : Lexed) : Prop where
  tokens : ∀ t ∈ lexed.tokens, t.span.start.IsIn lexed.source.content.toList ∧
    t.span.stop.IsIn lexed.source.content.toList
  errors : ∀ d ∈ lexed.errors, d.span.start.IsIn lexed.source.content.toList ∧
    d.span.stop.IsIn lexed.source.content.toList
  ending : ∃ ts last, lexed.tokens = ts ++ [⟨.endOfSource, ⟨last, last⟩⟩] ∧
    last.Behind lexed.source.content.toList

/-- With a tilde for each NUL a text is read as it is with the NULs, and to its end. -/
theorem exchanges_lex (text url : String) :
    (lex text url).Exchanges (lex (text.map exchange) url) ∧ (lex text url).Complete := by
  have hexchanged : lex (text.map exchange) url =
      ⟨⟨url, String.ofList ((unifyLineEnds text.toList).map exchange)⟩,
        (lexFrom (Cursor.exchanged ⟨.start, unifyLineEnds text.toList⟩)).1,
        (lexFrom (Cursor.exchanged ⟨.start, unifyLineEnds text.toList⟩)).2⟩ := by
    rw [lex, String.toList_map, unifyLineEnds_map_exchange]
    rfl
  have horigin := Cursor.Onward.refl ⟨.start, unifyLineEnds text.toList⟩
  obtain ⟨htokens, herrors⟩ := lexFrom_exchanges horigin
  have hcontent : (lex text url).source.content.toList = unifyLineEnds text.toList :=
    String.toList_ofList
  rw [hexchanged]
  refine ⟨⟨?_, ?_, herrors, fun hno => ?_⟩, ?_⟩
  · rw [ofList_map_exchange]
    rfl
  · refine htokens.imp fun t t' h => ⟨h.span, ?_⟩
    obtain ⟨start, stop, raw, hstart, hraw, hspan, hlexeme⟩ := h.lexeme
    obtain ⟨before, hbefore⟩ := hstart.reads
    have htext : (lex text url).source.text t.span = String.ofList raw := by
      rw [hspan]
      exact hbefore.text hraw
    rwa [htext, String.toList_ofList]
  · rw [hcontent] at hno
    -- entry by entry the relation is now the exchange
    have hsame := List.forall₂_map_left_iff.mpr (htokens.imp fun t t' h => (h.eq_exchanged hno).symm)
    rw [List.forall₂_eq_eq_eq] at hsame
    exact hsame.symm
  · obtain ⟨ts, last, hall, hlast, hend⟩ := lexFrom_ends ⟨.start, unifyLineEnds text.toList⟩
    obtain ⟨run, hrun⟩ := hlast.reads
    have hwhole : run = unifyLineEnds text.toList := by
      have hrest := hrun.rest
      rw [hend, List.append_nil] at hrest
      exact hrest.symm
    have hbehind : last.location.Behind (unifyLineEnds text.toList) := by
      rw [hrun.location, hwhole]
      exact Location.behind_after _
    rw [← hcontent] at hbehind
    exact ⟨hcontent ▸ isIn_of_mem_tokens text url, hcontent ▸ isIn_of_mem_errors text url,
      ts, last.location, hall, hbehind⟩

/-- A reference to NUL says a NUL in the exchanged text as well. -/
theorem nul_reference_not_exchanged :
    (lex ("&#0;".map exchange) "").tokens ≠ (lex "&#0;" "").tokens.map .exchanged := by
  decide +kernel

end LiveMarkup
