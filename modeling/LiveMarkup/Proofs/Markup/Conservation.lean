import LiveMarkup.Proofs.Markup.BuiltDocument
import LiveMarkup.Proofs.Markup.Measure

namespace LiveMarkup

/-- The character data of an item. Names and comments do not count. -/
def Item.data : Item → List String
  | .opening _ attributes _ _ => attributes.entries.map (·.2)
  | .text value => [value]
  | _ => []

namespace Label

def data (l : Label) : List String :=
  match l.content with
  | .text value => value :: l.attributes.entries.map (·.2)
  | _ => l.attributes.entries.map (·.2)

theorem values_sublist (l : Label) : (l.attributes.entries.map (·.2)).Sublist l.data := by
  unfold data
  split
  · exact List.sublist_cons_self _ _
  · exact List.Sublist.refl _

end Label

namespace Tree

def data (t : Tree) : List String := t.labels.flatMap Label.data

theorem data_node (l : Label) (ts : List Tree) : (node l ts).data = l.data ++ ts.flatMap data := by
  rw [data, labels_node, List.flatMap_cons, List.flatMap_assoc]
  rfl

theorem data_leaf (l : Label) : (leaf l).data = l.data := by
  rw [leaf, data_node, List.flatMap_nil, List.append_nil]

end Tree

def OpenElement.data (e : OpenElement) : List String :=
  e.attributes.entries.map (·.2) ++ e.children.flatMap Tree.data

namespace Builder

def data (b : Builder) : List String :=
  b.opened.flatMap OpenElement.data ++ b.roots.flatMap Tree.data

def textBefore (b : Builder) : String :=
  match b.siblings with
  | .node ⟨.text before, _, _⟩ _ :: _ => before
  | _ => ""

/-- Each text among the items stands in the relation to what it would join. -/
def EveryJoin (P : String → String → Prop) (preserve : Bool) : Builder → List Item → Prop
  | _, [] => True
  | b, .text value :: items =>
    P b.textBefore value ∧ EveryJoin P preserve (b.push preserve (.text value)) items
  | b, i :: items => EveryJoin P preserve (b.push preserve i) items

instance decidableEveryJoin {P : String → String → Prop} [∀ s t, Decidable (P s t)]
    (preserve : Bool) :
    ∀ (b : Builder) (items : List Item), Decidable (EveryJoin P preserve b items)
  | _, [] => .isTrue trivial
  | b, .text value :: items =>
    have := decidableEveryJoin (P := P) preserve (b.push preserve (.text value)) items
    inferInstanceAs (Decidable (P b.textBefore value ∧
      EveryJoin P preserve (b.push preserve (.text value)) items))
  | b, .opening name attributes selfClosing span :: items =>
    decidableEveryJoin preserve (b.push preserve (.opening name attributes selfClosing span)) items
  | b, .closing name span :: items =>
    decidableEveryJoin preserve (b.push preserve (.closing name span)) items
  | b, .comment value :: items =>
    decidableEveryJoin preserve (b.push preserve (.comment value)) items

end Builder

variable {μ : List Char → Nat}

theorem Table.weight_put_le (t : Table String) (name value : String) :
    weight μ ((t.put name value).entries.map (·.2)) ≤
      weight μ (t.entries.map (·.2)) + μ value.toList := by
  obtain ⟨entries⟩ := t
  rw [put]
  induction entries with
  | nil => simp [putEntry]
  | cons e entries ih =>
    rw [putEntry]
    split
    · simp only [List.map_cons, weight_cons]
      omega
    · simp only [List.map_cons, weight_cons] at ih ⊢
      omega

theorem Table.weight_ofEntries_le (entries : List (String × String)) :
    weight μ ((ofEntries entries).entries.map (·.2)) ≤ weight μ (entries.map (·.2)) := by
  have hfold : ∀ (entries : List (String × String)) (t : Table String),
      weight μ ((entries.foldl (fun t e => t.put e.1 e.2) t).entries.map (·.2)) ≤
        weight μ (t.entries.map (·.2)) + weight μ (entries.map (·.2)) := by
    intro entries
    induction entries with
    | nil => exact fun t => Nat.le_refl _
    | cons e entries ih =>
      intro t
      have hput := t.weight_put_le (μ := μ) e.1 e.2
      have hrest := ih (t.put e.1 e.2)
      rw [List.foldl_cons, List.map_cons, weight_cons]
      omega
  have hall := hfold entries .empty
  rwa [empty, List.map_nil, weight_nil, Nat.zero_add] at hall

/-- The attributes of a start tag are read ahead, and none of their tokens is an item. -/
theorem weight_attributes_add_ofTokens_le (hμ : Superadditive μ) (tokens : List Token) :
    weight μ ((Item.attributes tokens).map (·.2)) +
        weight μ ((Item.ofTokens tokens).flatMap Item.data) ≤
      weight μ (tokens.flatMap Token.data) := by
  -- on the number of tokens, as an attribute with a value takes two
  induction hn : tokens.length using Nat.strong_induction_on generalizing tokens with
  | _ n ih =>
    subst hn
    fun_cases Item.attributes tokens with
    | case1 name span value span' rest =>
      have hrest := ih _ (by simp only [List.length_cons]; omega) rest rfl
      simp only [Item.ofTokens, Token.data, List.map_cons, List.flatMap_cons,
        weight_cons, weight_append, weight_nil] at hrest ⊢
      omega
    | case2 name span rest hvalue =>
      have hrest := ih _ (Nat.lt_succ_self _) rest rfl
      have hnil : μ "".toList = 0 := hμ.nil
      rw [List.map_cons, weight_cons, hnil, Nat.zero_add]
      exact hrest
    | case3 =>
      cases tokens with
      | nil => exact Nat.le_refl _
      | cons token rest =>
        obtain ⟨lexeme, span⟩ := token
        have hrest := ih _ (Nat.lt_succ_self _) rest rfl
        cases lexeme with
        | startTag name =>
          have hattributes := Table.weight_ofEntries_le (μ := μ) (Item.attributes rest)
          simp only [Item.ofTokens, Item.data, Token.data, List.flatMap_cons, weight_append,
            List.map_nil, weight_nil] at hrest ⊢
          omega
        | _ =>
          simp only [Item.ofTokens, Item.data, Token.data, List.flatMap_cons, weight_append,
            List.map_nil, weight_nil, weight_cons] at hrest ⊢
          omega

namespace OpenElement

theorem weight_tree (e : OpenElement) : weight μ e.tree.data = weight μ e.data := by
  rw [tree, Tree.data_node, data, weight_append, weight_append,
    weight_perm ((List.reverse_perm e.children).flatMap_right Tree.data)]
  rfl

end OpenElement

namespace Builder

theorem weight_withSiblings (b : Builder) (ts : List Tree) :
    weight μ (b.withSiblings ts).data + weight μ (b.siblings.flatMap Tree.data) =
      weight μ b.data + weight μ (ts.flatMap Tree.data) := by
  obtain ⟨opened, roots, errors⟩ := b
  cases opened with
  | nil =>
    simp only [data, withSiblings, siblings, List.flatMap_nil, List.nil_append]
    omega
  | cons e opened =>
    simp only [data, withSiblings, siblings, OpenElement.data, List.flatMap_cons, weight_append]
    omega

theorem weight_add (b : Builder) (t : Tree) :
    weight μ (b.add t).data = weight μ b.data + weight μ t.data := by
  have hsiblings := b.weight_withSiblings (μ := μ) (t :: b.siblings)
  rw [List.flatMap_cons, weight_append] at hsiblings
  rw [add]
  omega

theorem weight_closeInnermost (b : Builder) : weight μ b.closeInnermost.data = weight μ b.data := by
  obtain ⟨opened, roots, errors⟩ := b
  cases opened with
  | nil => rfl
  | cons e opened =>
    rw [closeInnermost, weight_add, OpenElement.weight_tree]
    simp only [data, List.flatMap_cons, weight_append]
    omega

theorem weight_close (b : Builder) (n : Nat) : weight μ (b.close n).data = weight μ b.data := by
  induction n generalizing b with
  | zero => rfl
  | succ n ih => rw [close, ih, weight_closeInnermost]

theorem weight_addText_le (b : Builder) {value : String}
    (h : μ (b.textBefore ++ value).toList ≤ μ b.textBefore.toList + μ value.toList) :
    weight μ (b.addText value).data ≤ weight μ b.data + μ value.toList := by
  unfold addText
  unfold textBefore at h
  split
  · rename_i before attributes control ts rest heq
    have hsiblings := b.weight_withSiblings (μ := μ)
      (.node ⟨.text (before ++ value), attributes, control⟩ ts :: rest)
    rw [heq] at h hsiblings
    simp only [List.flatMap_cons, Tree.data_node, Label.data, weight_append, weight_cons]
      at hsiblings
    dsimp only at h
    omega
  · rw [weight_add, Tree.data_leaf]
    simp [Label.data, Label.text, Table.empty]

theorem weight_push_le (b : Builder) (preserve : Bool) {i : Item}
    (h : ∀ value, i = .text value →
      μ (b.textBefore ++ value).toList ≤ μ b.textBefore.toList + μ value.toList) :
    weight μ (b.push preserve i).data ≤ weight μ b.data + weight μ i.data := by
  unfold push
  split
  · split
    · rw [weight_add, Tree.data_leaf]
      exact Nat.le_refl _
    · simp only [data, OpenElement.data, Item.data, List.flatMap_cons, List.flatMap_nil,
        weight_append, weight_nil]
      omega
  · split
    · exact Nat.le_add_right _ _
    · rw [weight_close]
      exact Nat.le_add_right _ _
  · rename_i value
    have htext := b.weight_addText_le (h value rfl)
    simp only [Item.data, weight_cons, weight_nil]
    split
    · exact Nat.le_add_right _ _
    · split
      · exact Nat.le_add_right _ _
      · exact htext
  · rw [weight_add, Tree.data_leaf]
    exact Nat.le_refl _

def JoinsWithin (μ : List Char → Nat) : Bool → Builder → List Item → Prop :=
  EveryJoin fun before value => μ (before ++ value).toList ≤ μ before.toList + μ value.toList

theorem weight_foldl_le {preserve : Bool} {b : Builder} {items : List Item}
    (h : JoinsWithin μ preserve b items) :
    weight μ (items.foldl (push preserve) b).data ≤
      weight μ b.data + weight μ (items.flatMap Item.data) := by
  induction items generalizing b with
  | nil => exact Nat.le_refl _
  | cons i items ih =>
    have hfirst : weight μ (b.push preserve i).data ≤ weight μ b.data + weight μ i.data := by
      refine b.weight_push_le preserve fun value hi => ?_
      subst hi
      exact h.1
    have hrest : JoinsWithin μ preserve (b.push preserve i) items := by
      cases i with
      | text value => exact h.2
      | _ => exact h
    have hall := ih hrest
    rw [List.foldl_cons, List.flatMap_cons, weight_append]
    omega

theorem weight_run_le {preserve : Bool} {items : List Item}
    (h : JoinsWithin μ preserve start items) :
    weight μ ((run preserve items).roots.flatMap Tree.data) ≤
      weight μ (items.flatMap Item.data) := by
  have hall := weight_foldl_le h
  have hstart : weight μ start.data = 0 := rfl
  have hfinish : weight μ (run preserve items).data =
      weight μ (items.foldl (push preserve) start).data := weight_close _ _
  rw [data, weight_append] at hfinish
  omega

end Builder

/-- The trees of a text have no more of anything than the text, unless more of it arises where a
reference is decoded or where a text joins another one. -/
theorem weight_parse_le (hμ : Superadditive μ) {text url : String} {preserve : Bool}
    (hdecode : DecodesWithin μ (unifyLineEnds text.toList))
    (hjoin : Builder.JoinsWithin μ preserve .start (Item.ofTokens (lex text url).tokens)) :
    weight μ ((parse text url preserve).roots.flatMap Tree.data) ≤
      μ (unifyLineEnds text.toList) := by
  let built := Builder.run preserve (Item.ofTokens (lex text url).tokens)
  have hroots : weight μ ((parse text url preserve).roots.flatMap Tree.data) =
      weight μ (built.roots.flatMap Tree.data) := by
    rw [roots_parse]
    exact weight_perm ((List.reverse_perm _).flatMap_right Tree.data)
  have hitems := weight_attributes_add_ofTokens_le hμ (lex text url).tokens
  have htokens : weight μ ((lex text url).tokens.flatMap Token.data) ≤
      μ (unifyLineEnds text.toList) :=
    lexFrom_bounded hμ (k := ⟨.start, unifyLineEnds text.toList⟩) hdecode
  have hrun : weight μ (built.roots.flatMap Tree.data) ≤ _ := Builder.weight_run_le hjoin
  omega

end LiveMarkup
