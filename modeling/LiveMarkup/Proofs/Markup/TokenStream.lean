import LiveMarkup.Proofs.Markup.Coverage
import LiveMarkup.Proofs.Markup.Spacing

namespace LiveMarkup

/-! ### Texts side by side -/

def Token.isText (t : Token) : Bool :=
  match t.lexeme with
  | .text _ => true
  | _ => false

def TextsSeparate (tokens : List Token) : Prop :=
  tokens.IsChain fun t u => t.isText = false ∨ u.isText = false

structure LexStep.Separate (k : Cursor) (s : LexStep) : Prop where
  nonempty : s.tokens ≠ []
  apart : TextsSeparate s.tokens
  first : ∀ t ∈ s.tokens.head?, t.isText = true → opensMarkup k.rest = false
  last : ∀ t ∈ s.tokens.getLast?, t.isText = true →
    s.next.rest = [] ∨ opensMarkup s.next.rest = true

/-- Behind tokens that are no texts there is one text at most, with markup or nothing behind it. -/
theorem LexStep.Separate.of_front {k : Cursor} {s : LexStep} {front content : List Token}
    (hs : s.tokens = front ++ content) (hne : front ≠ []) (hfront : ∀ t ∈ front, t.isText = false)
    (hcontent : content = [] ∨
      ∃ t, content = [t] ∧ (s.next.rest = [] ∨ opensMarkup s.next.rest = true)) :
    s.Separate k := by
  have happart : TextsSeparate front :=
    (List.pairwise_of_forall_mem_list fun t ht u hu => .inl (hfront t ht)).isChain
  refine ⟨by simp [hs, hne], ?_, fun t ht htext => ?_, fun t ht htext => ?_⟩
  · rw [TextsSeparate, hs, List.isChain_append]
    refine ⟨happart, ?_, fun t ht _ _ => .inl (hfront t (List.mem_of_mem_getLast? ht))⟩
    rcases hcontent with rfl | ⟨t, rfl, -⟩
    · exact .nil
    · exact .singleton t
  · obtain ⟨u, front, rfl⟩ := List.exists_cons_of_ne_nil hne
    rw [hs, List.cons_append, List.head?_cons, Option.mem_some_iff] at ht
    rw [← ht, hfront u List.mem_cons_self] at htext
    cases htext
  · rcases hcontent with rfl | ⟨u, rfl, hlast⟩
    · rw [hs, List.append_nil] at ht
      rw [hfront t (List.mem_of_mem_getLast? ht)] at htext
      cases htext
    · exact hlast

theorem opensMarkup_of_closesRaw {name : String} {cs : List Char} (h : closesRaw name cs = true) :
    opensMarkup cs = true := by
  obtain ⟨rest, rfl⟩ := exists_of_closesRaw h
  simp [opensMarkup]

theorem lexText_separate {k : Cursor} (h : opensMarkup k.rest = false) : (lexText k).Separate k := by
  obtain ⟨rest, hrest, hlast, -⟩ := exists_runUntil opensMarkup k.rest
  refine ⟨by simp [lexText], .singleton _, fun _ _ _ => h, fun _ _ _ => ?_⟩
  rw [lexText, Cursor.rest_skip hrest rfl]
  exact hlast

theorem lexContent_texts (name : String) (k : Cursor) : (lexContent name k).tokens = [] ∨
    ∃ t, (lexContent name k).tokens = [t] ∧ ((lexContent name k).next.rest = [] ∨
      opensMarkup (lexContent name k).next.rest = true) := by
  have hraw : ∀ decode, (lexRawText name decode k).tokens = [] ∨
      ∃ t, (lexRawText name decode k).tokens = [t] ∧ ((lexRawText name decode k).next.rest = [] ∨
        opensMarkup (lexRawText name decode k).next.rest = true) := by
    intro decode
    obtain ⟨rest, hrest, hlast, -⟩ := exists_runUntil (closesRaw name) k.rest
    unfold lexRawText
    dsimp only
    split
    · exact .inl rfl
    · refine .inr ⟨_, rfl, ?_⟩
      rw [Cursor.rest_skip hrest rfl]
      exact hlast.imp_right opensMarkup_of_closesRaw
  unfold lexContent
  split
  · exact hraw _
  · exact hraw _
  · exact .inl rfl

theorem AttributeRun.isText {tokens : List Token} {entries : List (String × String)}
    (h : AttributeRun tokens entries) : ∀ t ∈ tokens, t.isText = false := by
  induction h with
  | nil => simp
  | bare named rest ih => exact List.forall_mem_cons.mpr ⟨rfl, ih⟩
  | valued named rest ih =>
    exact List.forall_mem_cons.mpr ⟨rfl, List.forall_mem_cons.mpr ⟨rfl, ih⟩⟩

theorem lexStartTag_separate {k : Cursor} (h : (lexStartTag k).errors = []) :
    (lexStartTag k).Separate k := by
  obtain ⟨entries, hrun⟩ := lexAttributes_run (lexTagName k).next
  have hfront : ∀ (name : String) (span : Span) {stop : Token}, stop.isText = false →
      ∀ t ∈ [⟨.startTag name, span⟩] ++ (lexAttributes (lexTagName k).next).tokens ++ [stop],
        t.isText = false := by
    intro name span stop hstop t ht
    rcases List.mem_append.mp ht with ht | ht
    · rcases List.mem_append.mp ht with ht | ht
      · rw [List.mem_singleton.mp ht]
        rfl
      · exact hrun.isText t ht
    · rwa [List.mem_singleton.mp ht]
  unfold lexStartTag at h ⊢
  dsimp only at h ⊢
  rcases lexTagEnd_found (List.append_eq_nil_iff.mp h).2 with ⟨span, hvoid⟩ | ⟨span, hopen⟩
  · rw [hvoid]
    exact .of_front (List.append_nil _).symm (by simp [LexStep.andThen]) (hfront _ _ rfl) (.inl rfl)
  · rw [hopen, ← LexStep.andThen_assoc]
    exact .of_front rfl (by simp [LexStep.andThen]) (hfront _ _ rfl) (lexContent_texts _ _)

theorem lexItem_separate {k : Cursor} (h : (lexItem k).errors = []) : (lexItem k).Separate k := by
  have htoken : ∀ {t : Token} {next : Cursor}, t.isText = false →
      LexStep.Separate k ⟨[t], [], next⟩ := fun ht =>
    .of_front (List.append_nil _).symm (by simp) (by simpa using ht) (.inl rfl)
  have hdelimited : ∀ {opening : Nat} {closing : List Char} {lexeme : String → Lexeme}
      {message : String}, (∀ body span, Token.isText ⟨lexeme body, span⟩ = false) →
      (lexDelimited opening closing lexeme message k).errors = [] →
      (lexDelimited opening closing lexeme message k).Separate k := by
    intro opening closing lexeme message hlexeme h
    unfold lexDelimited at h ⊢
    dsimp only at h ⊢
    split at h
    · cases h
    · rename_i hend
      rw [if_neg hend]
      exact htoken (hlexeme _ _)
  unfold lexItem at h ⊢
  split at h
  · rename_i hopens
    rw [if_pos hopens]
    unfold lexMarkup at h ⊢
    split at h
    · split_ifs at h ⊢
      · exact hdelimited (fun _ _ => rfl) h
      · exact hdelimited (fun _ _ => rfl) h
      · exact hdelimited (fun _ _ => rfl) h
    · unfold lexEndTag at h ⊢
      dsimp only at h ⊢
      split at h
      · rename_i hend
        rw [if_pos hend]
        exact htoken rfl
      · cases h
    · exact lexStartTag_separate h
  · rename_i hopens
    rw [if_neg hopens]
    exact lexText_separate (by simpa using hopens)

/-- Without an error no two neighbours are texts. -/
theorem textsSeparate_lexFrom {k : Cursor} (h : (lexFrom k).2 = []) :
    TextsSeparate (lexFrom k).1 ∧
      ∀ t ∈ (lexFrom k).1.head?, t.isText = true → k.rest ≠ [] ∧ opensMarkup k.rest = false := by
  fun_induction lexFrom k with
  | case1 k hk =>
    refine ⟨.singleton _, fun t ht htext => ?_⟩
    obtain rfl := Option.mem_some_iff.mp ht
    cases htext
  | case2 k hk tokens errors heq ih =>
    rw [heq] at ih
    obtain ⟨hitem, hothers⟩ := List.append_eq_nil_iff.mp h
    have hfirst := lexItem_separate hitem
    obtain ⟨hchain, hhead⟩ := ih hothers
    refine ⟨List.isChain_append.mpr ⟨hfirst.apart, hchain, fun t ht u hu => ?_⟩, fun t ht htext => ?_⟩
    · by_contra hboth
      rw [not_or, Bool.not_eq_false, Bool.not_eq_false] at hboth
      obtain ⟨hne, hno⟩ := hhead u hu hboth.2
      rcases hfirst.last t ht hboth.1 with hnil | hopens
      · exact hne hnil
      · rw [hopens] at hno
        cases hno
    · rw [List.head?_append_of_ne_nil _ hfirst.nonempty] at ht
      exact ⟨hk, hfirst.first t ht htext⟩

namespace Tree

def elements (t : Tree) : List Label := t.labels.filter (·.content.isElement)

theorem elements_node (l : Label) (ts : List Tree) :
    (node l ts).elements = (if l.content.isElement then [l] else []) ++ ts.flatMap elements := by
  rw [elements, labels_node, List.filter_cons, List.filter_flatMap]
  split <;> rfl

end Tree

namespace Builder

def elements (b : Builder) : List Label :=
  (b.roots.reverse ++ b.opened.reverse.map OpenElement.tree).flatMap Tree.elements

theorem exists_elements_withSiblings (b : Builder) : ∃ before, ∀ ts,
    (b.withSiblings ts).elements = before ++ ts.reverse.flatMap Tree.elements := by
  obtain ⟨opened, roots, errors⟩ := b
  cases opened with
  | nil => exact ⟨[], fun ts => by simp [elements, withSiblings]⟩
  | cons e opened =>
    refine ⟨(⟨opened, roots, errors⟩ : Builder).elements ++ [⟨.element e.name, e.attributes, none⟩],
      fun ts => ?_⟩
    simp [elements, withSiblings, OpenElement.tree, Tree.elements_node, Content.isElement]

theorem elements_add (b : Builder) (t : Tree) :
    (b.add t).elements = b.elements ++ t.elements := by
  obtain ⟨before, hlevel⟩ := b.exists_elements_withSiblings
  have hb := hlevel b.siblings
  rw [withSiblings_siblings] at hb
  rw [add, hlevel, hb]
  simp

theorem elements_closeInnermost (b : Builder) : b.closeInnermost.elements = b.elements := by
  obtain ⟨opened, roots, errors⟩ := b
  cases opened with
  | nil => rfl
  | cons e opened =>
    rw [closeInnermost, elements_add]
    simp [elements]

theorem elements_close (b : Builder) (n : Nat) : (b.close n).elements = b.elements := by
  induction n generalizing b with
  | zero => rfl
  | succ n ih => rw [close, ih, elements_closeInnermost]

theorem elements_addText (b : Builder) (value : String) : (b.addText value).elements = b.elements := by
  obtain ⟨before, hlevel⟩ := b.exists_elements_withSiblings
  unfold addText
  split
  · rename_i text attributes control ts rest hsiblings
    have hb := hlevel b.siblings
    rw [withSiblings_siblings, hsiblings] at hb
    rw [hlevel, hb]
    simp [Tree.elements_node, Content.isElement]
  · rw [elements_add, Tree.leaf, Tree.elements_node]
    exact List.append_nil _

end Builder

def Item.element? : Item → Option Label
  | .opening name attributes _ _ => some ⟨.element name, attributes, none⟩
  | _ => none

namespace Builder

theorem elements_push (preserve : Bool) (b : Builder) (i : Item) :
    (b.push preserve i).elements = b.elements ++ i.element?.toList := by
  unfold push
  split
  · split
    · rw [elements_add, Tree.leaf, Tree.elements_node]
      rfl
    · simp [elements, OpenElement.tree, Tree.elements_node, Content.isElement, Item.element?]
  · split
    · exact (List.append_nil _).symm
    · rw [elements_close]
      exact (List.append_nil _).symm
  · split_ifs
    · exact (List.append_nil _).symm
    · exact (List.append_nil _).symm
    · rw [elements_addText]
      exact (List.append_nil _).symm
  · rw [elements_add, Tree.leaf, Tree.elements_node]
    rfl

theorem elements_foldl (preserve : Bool) (b : Builder) (items : List Item) :
    (items.foldl (push preserve) b).elements = b.elements ++ items.filterMap Item.element? := by
  induction items generalizing b with
  | nil => exact (List.append_nil _).symm
  | cons i items ih =>
    rw [List.foldl_cons, ih, elements_push, List.append_assoc]
    cases hi : i.element? <;> simp [hi]

theorem elements_run (preserve : Bool) (items : List Item) :
    (run preserve items).roots.reverse.flatMap Tree.elements = items.filterMap Item.element? := by
  have hall := elements_foldl preserve start items
  have hrun : (run preserve items).elements = (items.foldl (push preserve) start).elements :=
    elements_close _ _
  rw [elements, run, opened_finish, List.reverse_nil, List.map_nil, List.append_nil] at hrun
  exact hrun.trans hall

end Builder

theorem Table.get?_ofEntries {α : Type} (entries : List (String × α)) (name : String) :
    (ofEntries entries).get? name = (entries.reverse.find? (·.1 == name)).map (·.2) := by
  induction entries using List.reverseRecOn with
  | nil => rfl
  | append_singleton entries e ih =>
    have hput : ofEntries (entries ++ [e]) = (ofEntries entries).put e.1 e.2 := by
      rw [ofEntries, List.foldl_append]
      rfl
    rw [hput, List.reverse_append, List.reverse_singleton, List.singleton_append, List.find?_cons]
    by_cases he : e.1 = name
    · subst he
      rw [get?_put_self, beq_self_eq_true]
      rfl
    · rw [get?_put_of_ne _ _ (Ne.symm he), ih, beq_false_of_ne he]

/-- The element has the name of the start tag. It has each name among the tag's attributes once, with the
value that is written last, and no other names. -/
structure Label.Bears (l : Label) (tag : StartTag) : Prop where
  element : l.content = .element tag.name
  nodup : l.attributes.names.Nodup
  values : ∀ name, l.attributes.get? name = (tag.attributes.reverse.find? (·.1 == name)).map (·.2)

theorem Label.bears_ofEntries (name : String) (entries : List (String × String)) :
    Label.Bears ⟨.element name, Table.ofEntries entries, none⟩ ⟨name, entries⟩ :=
  ⟨rfl, Table.nodup_names_ofEntries entries, Table.get?_ofEntries entries⟩

theorem elements_startTag (name : String) (span : Span) {inside : List Token}
    {entries : List (String × String)} (h : AttributeRun inside entries) {stop : Token}
    (hstop : Item.isAttribute stop = false) (rest : List Token) :
    (Item.ofTokens (⟨.startTag name, span⟩ :: (inside ++ stop :: rest))).filterMap Item.element? =
      ⟨.element name, Table.ofEntries entries, none⟩ ::
        (Item.ofTokens (stop :: rest)).filterMap Item.element? := by
  rw [h.ofTokens_startTag name span hstop]
  rfl

theorem TokenStream.elements {faulty : Prop} {tokens : List Token} {tags : List StartTag}
    (h : TokenStream faulty tokens tags) :
    List.Forall₂ Label.Bears ((Item.ofTokens tokens).filterMap Item.element?) tags := by
  induction h with
  | finished span => exact .nil
  | unfinished name span span' attributes fault =>
    rw [elements_startTag name span attributes rfl]
    exact .cons (Label.bears_ofEntries name _) .nil
  | group first rest ih =>
    cases first with
    | text | comment | cdata | doctype | endTag => exact ih
    | startTag name span attributes ends =>
      rename_i stop
      obtain ⟨lexeme, span'⟩ := stop
      rw [List.cons_append, List.append_assoc, List.singleton_append]
      rcases ends with he | he
      · obtain rfl : lexeme = .startTagEnd := he
        rw [elements_startTag name span attributes rfl]
        exact .cons (Label.bears_ofEntries name _) ih
      · obtain rfl : lexeme = .startTagEndVoid := he
        rw [elements_startTag name span attributes rfl]
        exact .cons (Label.bears_ofEntries name _) ih

/-- The tokens are a stream, in which only an error leaves a start tag without an end or texts side by
side, and the elements of the trees bear the attributes of the start tags in the stream, one by one. -/
theorem stream_lex (text url : String) (preserve : Bool) :
    ∃ tags, TokenStream ((lex text url).errors ≠ []) (lex text url).tokens tags ∧
      ((lex text url).errors = [] → TextsSeparate (lex text url).tokens) ∧
      List.Forall₂ Label.Bears ((parse text url preserve).roots.flatMap Tree.elements) tags := by
  obtain ⟨tags, hstream⟩ := lexFrom_stream (k := ⟨.start, unifyLineEnds text.toList⟩) id
  refine ⟨tags, hstream, fun h => (textsSeparate_lexFrom h).1, ?_⟩
  rw [roots_parse]
  exact (Builder.elements_run preserve _).symm ▸ hstream.elements

end LiveMarkup
