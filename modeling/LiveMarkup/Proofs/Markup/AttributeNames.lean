import LiveMarkup.Proofs.Markup.Builder
import LiveMarkup.Proofs.Markup.Escaping
import Mathlib.Data.List.Nodup

namespace LiveMarkup

/-! ### Names and comments of tokens -/

/-- An attribute name is a run of the text without any character that ends names, and a comment is a
run of the text. -/
structure Token.SaidIn (cs : List Char) (t : Token) : Prop where
  name : ∀ name, t.lexeme = .attributeName name →
    name.toList <:+: cs ∧ ∀ c ∈ name.toList, endsName c = false
  comment : ∀ value, t.lexeme = .comment value → value.toList <:+: cs

structure LexStep.Within (cs : List Char) (s : LexStep) : Prop where
  rest : s.next.rest <:+ cs
  said : ∀ t ∈ s.tokens, t.SaidIn cs

theorem Token.SaidIn.mono {cs more : List Char} {t : Token} (h : t.SaidIn cs) (hs : cs <:+ more) :
    t.SaidIn more :=
  ⟨fun name he => ⟨(h.name name he).1.trans hs.isInfix, (h.name name he).2⟩,
    fun value he => (h.comment value he).trans hs.isInfix⟩

namespace LexStep.Within

variable {cs : List Char} {s t : LexStep}

theorem mono {more : List Char} (h : s.Within cs) (hs : cs <:+ more) : s.Within more :=
  ⟨h.rest.trans hs, fun t ht => (h.said t ht).mono hs⟩

theorem andThen (h : s.Within cs) (h' : t.Within s.next.rest) : (s.andThen t).Within cs := by
  refine ⟨h'.rest.trans h.rest, fun u hu => ?_⟩
  rcases List.mem_append.mp hu with hu | hu
  · exact h.said u hu
  · exact (h'.said u hu).mono h.rest

theorem of_no_tokens {errors : List Diagnostic} {k : Cursor} (h : k.rest <:+ cs) :
    LexStep.Within cs ⟨[], errors, k⟩ := ⟨h, by simp⟩

theorem of_token {errors : List Diagnostic} {k : Cursor} {l : Lexeme} {span : Span}
    (h : k.rest <:+ cs) (hl : (∀ name, l ≠ .attributeName name) ∧ ∀ value, l ≠ .comment value) :
    LexStep.Within cs ⟨[⟨l, span⟩], errors, k⟩ := by
  refine ⟨h, fun t ht => ?_⟩
  rw [List.mem_singleton] at ht
  subst ht
  exact ⟨fun name he => absurd he (hl.1 name), fun value he => absurd he (hl.2 value)⟩

end LexStep.Within

theorem Cursor.rest_skip_suffix (k : Cursor) (n : Nat) : (k.skip n).rest <:+ k.rest :=
  List.drop_suffix n k.rest

theorem Cursor.rest_skipSpace_suffix (k : Cursor) : k.skipSpace.rest <:+ k.rest :=
  k.rest_skip_suffix _

theorem lexText_within (k : Cursor) : (lexText k).Within k.rest :=
  .of_token (k.rest_skip_suffix _) (by simp)

theorem lexDelimited_within {opening : Nat} {closing : List Char} {lexeme : String → Lexeme}
    {message : String} (k : Cursor) (hl : ∀ body name, lexeme body ≠ .attributeName name)
    (hc : ∀ body value, lexeme body = .comment value → value = body) :
    (lexDelimited opening closing lexeme message k).Within k.rest := by
  unfold lexDelimited
  dsimp only
  split
  · exact .of_no_tokens (k.rest_skip_suffix _)
  · refine ⟨(Cursor.rest_skip_suffix _ _).trans (k.rest_skip_suffix _), fun t ht => ?_⟩
    rw [List.mem_singleton] at ht
    subst ht
    refine ⟨fun name he => absurd he (hl _ name), fun value he => ?_⟩
    obtain ⟨rest, hbody, -⟩ := exists_runUntil closing.isPrefixOf (k.rest.drop opening)
    have hprefix : runUntil closing.isPrefixOf (k.rest.drop opening) <+: k.rest.drop opening :=
      ⟨rest, hbody.symm⟩
    rw [hc _ value he, String.toList_ofList]
    exact hprefix.isInfix.trans (List.drop_suffix _ _).isInfix

theorem lexEndTag_within (k : Cursor) : (lexEndTag k).Within k.rest := by
  have hstop : (((k.skip 2).skipSpace.skip (nameRun (k.skip 2).skipSpace).length).skipSpace).rest <:+
      k.rest :=
    (Cursor.rest_skipSpace_suffix _).trans ((Cursor.rest_skip_suffix _ _).trans
      ((Cursor.rest_skipSpace_suffix _).trans (k.rest_skip_suffix 2)))
  unfold lexEndTag
  dsimp only
  split
  · exact .of_token ((Cursor.rest_skip_suffix _ _).trans hstop) (by simp)
  · exact .of_no_tokens hstop

theorem lexValue_within (k : Cursor) : (lexValue k).Within k.rest := by
  have hquoted : ∀ q rest, (lexValue.quoted k q rest).Within k.rest := by
    intro q rest
    unfold lexValue.quoted
    dsimp only
    split
    · exact .of_no_tokens (k.rest_skip_suffix _)
    · exact .of_token ((Cursor.rest_skip_suffix _ _).trans (k.rest_skip_suffix _)) (by simp)
  unfold lexValue
  split
  · exact hquoted _ _
  · exact hquoted _ _
  · exact .of_token (k.rest_skip_suffix _) (by simp)

theorem lexAttribute_within (k : Cursor) : (lexAttribute k).Within k.rest := by
  have hname : ∀ t ∈ [(⟨.attributeName (String.ofList (nameRun k)),
      k.spanTo (k.skip (nameRun k).length)⟩ : Token)], t.SaidIn k.rest := by
    intro t ht
    rw [List.mem_singleton] at ht
    subst ht
    refine ⟨fun name he => ?_, fun value he => by cases he⟩
    obtain rfl := Lexeme.attributeName.inj he
    rw [String.toList_ofList]
    refine ⟨(List.takeWhile_prefix _).isInfix, fun c hc => ?_⟩
    simpa using List.mem_takeWhile_imp hc
  have hstep : LexStep.Within k.rest ⟨[⟨.attributeName (String.ofList (nameRun k)),
      k.spanTo (k.skip (nameRun k).length)⟩], [], (k.skip (nameRun k).length).skipSpace⟩ :=
    ⟨(Cursor.rest_skipSpace_suffix _).trans (k.rest_skip_suffix _), hname⟩
  unfold lexAttribute
  dsimp only
  split
  · exact hstep.andThen ((lexValue_within _).mono
      ((Cursor.rest_skipSpace_suffix _).trans (Cursor.rest_skip_suffix _ _)))
  · exact hstep

theorem lexAttributes_within (k : Cursor) : (lexAttributes k).Within k.rest := by
  fun_induction lexAttributes k with
  | case1 k h => exact .of_no_tokens k.rest_skipSpace_suffix
  | case2 k c rest h hc => exact .of_no_tokens k.rest_skipSpace_suffix
  | case3 k c rest h hc he ih =>
    have hstray : (lexStray c k.skipSpace).Within k.skipSpace.rest :=
      .of_no_tokens (Cursor.rest_skip_suffix _ _)
    exact (hstray.andThen ih).mono k.rest_skipSpace_suffix
  | case4 k c rest h hc he ih =>
    exact ((lexAttribute_within _).andThen ih).mono k.rest_skipSpace_suffix

theorem lexContent_within (name : String) (k : Cursor) : (lexContent name k).Within k.rest := by
  have hraw : ∀ decode, (lexRawText name decode k).Within k.rest := by
    intro decode
    unfold lexRawText
    dsimp only
    split
    · exact .of_no_tokens (k.rest_skip_suffix _)
    · exact .of_token (k.rest_skip_suffix _) (by simp)
  unfold lexContent
  split
  · exact hraw _
  · exact hraw _
  · exact .of_no_tokens (List.suffix_refl _)

theorem lexTagEnd_within (start : Cursor) (name : String) (k : Cursor) :
    (lexTagEnd start name k).Within k.rest := by
  unfold lexTagEnd
  split
  · exact .of_token (k.rest_skip_suffix _) (by simp)
  · split
    · have hend : LexStep.Within k.rest ⟨[⟨.startTagEnd, k.spanTo (k.skip 1)⟩], [], k.skip 1⟩ :=
        .of_token (k.rest_skip_suffix _) (by simp)
      exact hend.andThen (lexContent_within name _)
    · exact .of_no_tokens (List.suffix_refl _)

theorem lexStartTag_within (k : Cursor) : (lexStartTag k).Within k.rest := by
  have hopen : (lexTagName k).Within k.rest := .of_token (k.rest_skip_suffix _) (by simp)
  exact (hopen.andThen (lexAttributes_within _)).andThen (lexTagEnd_within _ _ _)

theorem lexItem_within (k : Cursor) : (lexItem k).Within k.rest := by
  unfold lexItem
  split
  · unfold lexMarkup
    split
    · split
      · exact lexDelimited_within k (by simp) (by simp)
      · split
        · exact lexDelimited_within k (by simp) (by simp)
        · exact lexDelimited_within k (by simp) (by simp)
    · exact lexEndTag_within k
    · exact lexStartTag_within k
  · exact lexText_within k

theorem lexFrom_said (k : Cursor) : ∀ t ∈ (lexFrom k).1, t.SaidIn k.rest := by
  fun_induction lexFrom k with
  | case1 k h =>
    intro t ht
    rw [List.mem_singleton] at ht
    subst ht
    exact ⟨fun _ he => (nomatch he), fun _ he => (nomatch he)⟩
  | case2 k h tokens errors heq ih =>
    intro t ht
    rcases List.mem_append.mp ht with ht | ht
    · exact (lexItem_within k).said t ht
    · exact (ih t (by rw [heq]; exact ht)).mono (lexItem_within k).rest

/-! ### Names and comments of items -/

theorem Table.names_map {α β : Type} (f : α → β) (t : Table α) : (t.map f).names = t.names := by
  rw [names, names, map, List.map_map]
  rfl

theorem Table.names_putEntry {α : Type} (name : String) (value : α) (entries : List (String × α)) :
    (putEntry name value entries).map (·.1) =
      if name ∈ entries.map (·.1) then entries.map (·.1) else entries.map (·.1) ++ [name] := by
  induction entries with
  | nil => simp [putEntry]
  | cons e rest ih =>
    by_cases he : e.1 = name
    · simp [putEntry, he]
    · have hne : ¬ name = e.1 := fun h => he h.symm
      simp only [putEntry, beq_iff_eq, he, if_false, List.map_cons, ih, List.mem_cons, hne, false_or]
      split <;> simp_all

theorem Table.names_put {α : Type} (t : Table α) (name : String) (value : α) :
    (t.put name value).names = if name ∈ t.names then t.names else t.names ++ [name] :=
  names_putEntry name value t.entries

theorem Table.nodup_names_put {α : Type} {t : Table α} (h : t.names.Nodup) (name : String)
    (value : α) : (t.put name value).names.Nodup := by
  rw [names_put]
  split
  · exact h
  · rename_i hnot
    rw [List.nodup_append]
    refine ⟨h, by simp, fun x hx y hy e => hnot ?_⟩
    rw [List.mem_singleton] at hy
    rwa [← hy, ← e]

theorem Table.mem_names_put {α : Type} {t : Table α} {name n : String} {value : α} :
    n ∈ (t.put name value).names ↔ n ∈ t.names ∨ n = name := by
  rw [names_put]
  split
  · rename_i hmem
    constructor
    · exact .inl
    · rintro (h | rfl)
      · exact h
      · exact hmem
  · simp

theorem Table.put_of_not_mem {α : Type} {t : Table α} {name : String} (v : α) (h : name ∉ t.names) :
    t.put name v = ⟨t.entries ++ [(name, v)]⟩ := by
  obtain ⟨entries⟩ := t
  rw [put, mk.injEq]
  induction entries with
  | nil => rfl
  | cons e entries ih =>
    rw [names, List.map_cons, List.mem_cons, not_or] at h
    have hne : (e.1 == name) = false := by simpa using fun he => h.1 he.symm
    rw [putEntry, hne, List.cons_append, ← ih h.2]
    rfl

/-- The attributes are what the source says: their names differ, and each is a part of the text. -/
structure NamedAttributes (cs : List Char) (attributes : Table String) : Prop where
  nodup : attributes.names.Nodup
  parts : ∀ n ∈ attributes.names, n.toList <:+: cs ∧ ∀ c ∈ n.toList, endsName c = false

theorem namedAttributes_empty (cs : List Char) : NamedAttributes cs .empty :=
  ⟨List.nodup_nil, by simp [Table.empty, Table.names]⟩

theorem namedAttributes_ofEntries {cs : List Char} {entries : List (String × String)}
    (h : ∀ a ∈ entries, a.1.toList <:+: cs ∧ ∀ c ∈ a.1.toList, endsName c = false) :
    NamedAttributes cs (Table.ofEntries entries) := by
  have hfold : ∀ (entries : List (String × String)) (t : Table String), NamedAttributes cs t →
      (∀ a ∈ entries, a.1.toList <:+: cs ∧ ∀ c ∈ a.1.toList, endsName c = false) →
      NamedAttributes cs (entries.foldl (fun t e => t.put e.1 e.2) t) := by
    intro entries
    induction entries with
    | nil => exact fun t ht _ => ht
    | cons a entries ih =>
      intro t ht ha
      refine ih _ ⟨Table.nodup_names_put ht.nodup _ _, fun n hn => ?_⟩ fun b hb =>
        ha b (List.mem_cons_of_mem _ hb)
      rcases Table.mem_names_put.mp hn with hn | rfl
      · exact ht.parts n hn
      · exact ha a List.mem_cons_self
  exact hfold entries .empty (namedAttributes_empty cs) h

theorem attributes_named {cs : List Char} {tokens : List Token} (h : ∀ t ∈ tokens, t.SaidIn cs) :
    ∀ a ∈ Item.attributes tokens, a.1.toList <:+: cs ∧ ∀ c ∈ a.1.toList, endsName c = false := by
  fun_induction Item.attributes tokens with
  | case1 name span value span' rest ih =>
    intro a ha
    rcases List.mem_cons.mp ha with rfl | ha
    · exact (h _ List.mem_cons_self).name name rfl
    · exact ih (fun t ht => h t (by simp [ht])) a ha
  | case2 name span rest hne ih =>
    intro a ha
    rcases List.mem_cons.mp ha with rfl | ha
    · exact (h _ List.mem_cons_self).name name rfl
    · exact ih (fun t ht => h t (by simp [ht])) a ha
  | case3 => simp

/-- The item's attributes or its comment, if it has any, are what the source says. -/
def Item.SaidIn (cs : List Char) : Item → Prop
  | .opening _ attributes _ _ => NamedAttributes cs attributes
  | .comment value => value.toList <:+: cs
  | _ => True

theorem ofTokens_said {cs : List Char} {tokens : List Token} (h : ∀ t ∈ tokens, t.SaidIn cs) :
    ∀ i ∈ Item.ofTokens tokens, i.SaidIn cs := by
  induction tokens with
  | nil => simp [Item.ofTokens]
  | cons t tokens ih =>
    have hrest := ih fun u hu => h u (List.mem_cons_of_mem _ hu)
    obtain ⟨lexeme, span⟩ := t
    intro i hi
    cases lexeme
    case startTag name =>
      rcases List.mem_cons.mp hi with rfl | hi
      · exact namedAttributes_ofEntries
          (attributes_named fun u hu => h u (List.mem_cons_of_mem _ hu))
      · exact hrest i hi
    case endTag | text | cdata =>
      rcases List.mem_cons.mp hi with rfl | hi
      · exact trivial
      · exact hrest i hi
    case comment value =>
      rcases List.mem_cons.mp hi with rfl | hi
      · exact (h _ List.mem_cons_self).comment value rfl
      · exact hrest i hi
    case attributeName | attributeValue | startTagEnd | startTagEndVoid | doctype | endOfSource =>
      exact hrest i hi

/-! ### Names and comments in trees -/

/-- Each node of the tree has a label of that kind. -/
inductive Tree.EveryLabel (P : Label → Prop) : Tree → Prop where
  | node {l : Label} {ts : List Tree} (label : P l) (below : ∀ t ∈ ts, Tree.EveryLabel P t) :
      Tree.EveryLabel P (.node l ts)

structure Builder.EveryLabel (P : Label → Prop) (b : Builder) : Prop where
  opened : ∀ e ∈ b.opened, P ⟨.element e.name, e.attributes, none⟩ ∧ ∀ t ∈ e.children, t.EveryLabel P
  roots : ∀ t ∈ b.roots, t.EveryLabel P

namespace Builder.EveryLabel

variable {P : Label → Prop} {b : Builder}

theorem siblings (h : b.EveryLabel P) : ∀ t ∈ b.siblings, t.EveryLabel P := by
  unfold Builder.siblings
  split
  · exact h.roots
  · rename_i e rest he
    exact (h.opened e (by rw [he]; exact List.mem_cons_self)).2

theorem withSiblings {ts : List Tree} (h : b.EveryLabel P) (hts : ∀ t ∈ ts, t.EveryLabel P) :
    (b.withSiblings ts).EveryLabel P := by
  unfold Builder.withSiblings
  split
  · exact ⟨h.opened, hts⟩
  · rename_i e rest he
    refine ⟨fun e' he' => ?_, h.roots⟩
    rcases List.mem_cons.mp he' with rfl | hmem
    · exact ⟨(h.opened e (by rw [he]; exact List.mem_cons_self)).1, hts⟩
    · exact h.opened e' (by rw [he]; exact List.mem_cons_of_mem _ hmem)

theorem add {t : Tree} (h : b.EveryLabel P) (ht : t.EveryLabel P) : (b.add t).EveryLabel P :=
  h.withSiblings fun u hu => (List.mem_cons.mp hu).elim (fun e => e ▸ ht) (h.siblings u)

theorem report (h : b.EveryLabel P) (ds : List Diagnostic) : (b.report ds).EveryLabel P :=
  ⟨h.opened, h.roots⟩

theorem close (h : b.EveryLabel P) (n : Nat) : (b.close n).EveryLabel P := by
  induction n generalizing b with
  | zero => exact h
  | succ n ih =>
    refine ih ?_
    unfold Builder.closeInnermost
    split
    · exact h
    · rename_i e rest he
      have hopened := h.opened e (by rw [he]; exact List.mem_cons_self)
      have htree : e.tree.EveryLabel P :=
        .node hopened.1 fun t ht => hopened.2 t (List.mem_reverse.mp ht)
      have hrest : Builder.EveryLabel P { b with opened := rest } :=
        ⟨fun e' he' => h.opened e' (by rw [he]; exact List.mem_cons_of_mem _ he'), h.roots⟩
      exact hrest.add htree

theorem addText (h : b.EveryLabel P) (hnew : ∀ value, P (.text value))
    (hold : ∀ before after as control, P ⟨.text before, as, control⟩ → P ⟨.text after, as, control⟩)
    (value : String) : (b.addText value).EveryLabel P := by
  unfold Builder.addText
  split
  · rename_i before attributes control ts rest heq
    have hsiblings := h.siblings
    rw [heq] at hsiblings
    refine h.withSiblings fun t ht => ?_
    rcases List.mem_cons.mp ht with rfl | ht
    · cases hsiblings _ List.mem_cons_self with
      | node label below => exact .node (hold _ _ _ _ label) below
    · exact hsiblings t (List.mem_cons_of_mem _ ht)
  · exact h.add (.node (hnew value) (by simp))

end Builder.EveryLabel

structure Label.SaidIn (cs : List Char) (l : Label) : Prop where
  attributes : NamedAttributes cs l.attributes
  comment : ∀ value, l.content = .comment value → value.toList <:+: cs

theorem Label.saidIn_element {cs : List Char} {attributes : Table String}
    (h : NamedAttributes cs attributes) (name : String) :
    Label.SaidIn cs ⟨.element name, attributes, none⟩ :=
  ⟨h, fun _ he => by cases he⟩

theorem Builder.push_every {cs : List Char} {b : Builder} {i : Item} (preserve : Bool)
    (h : b.EveryLabel (Label.SaidIn cs)) (hi : i.SaidIn cs) :
    (b.push preserve i).EveryLabel (Label.SaidIn cs) := by
  unfold Builder.push
  split
  · split
    · exact h.add (.node (Label.saidIn_element hi _) (by simp))
    · refine ⟨fun e he => ?_, h.roots⟩
      rcases List.mem_cons.mp he with rfl | he
      · exact ⟨Label.saidIn_element hi _, by simp⟩
      · exact h.opened e he
  · split
    · exact h.report _
    · exact (h.report _).close _
  · split
    · exact h
    · split
      · exact h
      · exact h.addText (fun value => ⟨namedAttributes_empty cs, fun _ he => by cases he⟩)
          (fun before after as control hl => ⟨hl.attributes, fun _ he => by cases he⟩) _
  · refine h.add (.node ⟨namedAttributes_empty cs, fun value he => ?_⟩ (by simp))
    obtain rfl := Content.comment.inj he
    exact hi

theorem Builder.run_every {cs : List Char} (preserve : Bool) {items : List Item}
    (h : ∀ i ∈ items, i.SaidIn cs) :
    (Builder.run preserve items).EveryLabel (Label.SaidIn cs) := by
  have hfold : ∀ (items : List Item) (b : Builder), b.EveryLabel (Label.SaidIn cs) →
      (∀ i ∈ items, i.SaidIn cs) →
      (items.foldl (push preserve) b).EveryLabel (Label.SaidIn cs) := by
    intro items
    induction items with
    | nil => exact fun b hb _ => hb
    | cons i items ih =>
      exact fun b hb hi => ih _ (push_every preserve hb (hi i List.mem_cons_self)) fun j hj =>
        hi j (List.mem_cons_of_mem _ hj)
  have hstart : start.EveryLabel (Label.SaidIn cs) := ⟨by simp [start], by simp [start]⟩
  exact ((hfold items start hstart h).report _).close _

/-! ### Line ends -/

theorem isPrefix_of_unifyLineEnds {cs part : List Char} (h : part <+: unifyLineEnds cs)
    (hp : '\n' ∉ part) : part <+: cs := by
  fun_induction unifyLineEnds cs generalizing part with
  | case1 => exact h
  | case2 rest ih | case3 rest hne ih =>
    rcases List.prefix_cons_iff.mp h with rfl | ⟨more, rfl, -⟩
    · exact List.nil_prefix
    · exact absurd List.mem_cons_self hp
  | case4 c rest hne hne' ih =>
    rcases List.prefix_cons_iff.mp h with rfl | ⟨more, rfl, hmore⟩
    · exact List.nil_prefix
    · exact List.cons_prefix_cons.mpr ⟨rfl, ih hmore fun hm => hp (List.mem_cons_of_mem _ hm)⟩

theorem exists_of_suffix_unifyLineEnds {cs part : List Char} (h : part <:+ unifyLineEnds cs) :
    ∃ more, more <:+ cs ∧ part = unifyLineEnds more := by
  fun_induction unifyLineEnds cs generalizing part with
  | case1 =>
    rw [List.suffix_nil.mp h]
    exact ⟨[], List.suffix_refl _, rfl⟩
  | case2 rest ih =>
    rcases List.suffix_cons_iff.mp h with rfl | h
    · exact ⟨_, List.suffix_refl _, by rw [unifyLineEnds]⟩
    · obtain ⟨more, hmore, he⟩ := ih h
      exact ⟨more, hmore.trans ⟨['\r', '\n'], rfl⟩, he⟩
  | case3 rest hne ih | case4 c rest hne hne' ih =>
    rcases List.suffix_cons_iff.mp h with rfl | h
    · exact ⟨_, List.suffix_refl _, by rw [unifyLineEnds] <;> assumption⟩
    · obtain ⟨more, hmore, he⟩ := ih h
      exact ⟨more, hmore.trans (List.suffix_cons _ _), he⟩

/-- A part of the text with unified line ends that has no line end is a part of the text. -/
theorem isInfix_of_unifyLineEnds {cs part : List Char} (h : part <:+: unifyLineEnds cs)
    (hp : '\n' ∉ part) : part <:+: cs := by
  obtain ⟨rest, hstart, hrest⟩ := List.infix_iff_prefix_suffix.mp h
  obtain ⟨more, hmore, rfl⟩ := exists_of_suffix_unifyLineEnds hrest
  exact (isPrefix_of_unifyLineEnds hstart hp).isInfix.trans hmore.isInfix

end LiveMarkup
