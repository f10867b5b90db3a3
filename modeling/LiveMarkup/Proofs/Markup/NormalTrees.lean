import LiveMarkup.Proofs.Markup.Building

namespace LiveMarkup

namespace Tree

variable {preserve : Bool} {parent : Option String} {name : String}

/-- The tree can come of a source, inside an element of that name or outside of all elements. -/
inductive Normal (preserve : Bool) : Option String → Tree → Prop where
  | text {parent : Option String} {value : String} (nonempty : value ≠ "")
      (kept : IsKept preserve parent value) : Normal preserve parent (.leaf (.text value))
  | comment {parent : Option String} {value : String} :
      Normal preserve parent (.leaf (.comment value))
  | element {parent : Option String} {name : String} {attributes : Table String} {ts : List Tree}
      (distinct : attributes.names.Nodup) (emptiedDocument : isVoid name = true → ts = [])
      (inside : ∀ t ∈ ts, Normal preserve (some name) t) (apart : ts.IsChain Apart) :
      Normal preserve parent (.node ⟨.element name, attributes, none⟩ ts)

namespace Normal

variable {l : Label} {ts : List Tree}

theorem attributes (h : Normal preserve parent (.node l ts)) : l.attributes.names.Nodup := by
  cases h with
  | text | comment => exact List.nodup_nil
  | element distinct => exact distinct

theorem leaf (h : Normal preserve parent (.node l ts))
    (hleaf : l.content.isElement = true → isVoid l.name = true) : ts = [] := by
  cases h with
  | text | comment => rfl
  | element distinct emptiedDocument => exact emptiedDocument (hleaf rfl)

theorem content_ne (h : Normal preserve parent (.node l ts)) : l.content ≠ .text "" := by
  cases h with
  | text nonempty => exact fun he => nonempty (Content.text.inj he)
  | comment | element => exact nofun

theorem inside (h : Normal preserve parent (.node l ts)) {t : Tree} (ht : t ∈ ts) :
    ∃ name, l.content = .element name ∧ t.Normal preserve (some name) := by
  cases h with
  | text | comment => cases ht
  | @element _ name _ _ _ _ inside _ => exact ⟨name, rfl, inside t ht⟩

theorem apart (h : Normal preserve parent (.node l ts)) : ts.IsChain Apart := by
  cases h with
  | text | comment => exact .nil
  | element distinct emptiedDocument inside apart => exact apart

theorem kept (h : Normal preserve parent (.node l ts)) {value : String}
    (hvalue : l.content = .text value) : IsKept preserve parent value := by
  cases h with
  | text nonempty kept => exact Content.text.inj hvalue ▸ kept
  | comment | element => cases hvalue

end Normal

structure NormalAll (preserve : Bool) (parent : Option String) (ts : List Tree) : Prop where
  each : ∀ t ∈ ts, t.Normal preserve parent
  apart : ts.IsChain Apart

namespace NormalAll

variable {t : Tree} {ts : List Tree}

theorem nil : NormalAll preserve parent [] := ⟨by simp, .nil⟩

theorem cons (h : NormalAll preserve parent ts) (ht : t.Normal preserve parent)
    (hapart : ∀ u ∈ ts.head?, t.Apart u) : NormalAll preserve parent (t :: ts) :=
  ⟨List.forall_mem_cons.mpr ⟨ht, h.each⟩, List.isChain_cons.mpr ⟨hapart, h.apart⟩⟩

theorem tail (h : NormalAll preserve parent (t :: ts)) : NormalAll preserve parent ts :=
  ⟨(List.forall_mem_cons.mp h.each).2, (List.isChain_cons.mp h.apart).2⟩

theorem withText {value : String} (h : NormalAll preserve parent ts) (hvalue : value ≠ "")
    (hkept : IsKept preserve parent value) : NormalAll preserve parent (withText value ts) := by
  rcases withText_cases value ts with ⟨before, attributes, control, cs, rest, rfl, hjoined⟩ |
    ⟨hother, hnew⟩
  · rw [hjoined]
    refine h.tail.cons ?_ (List.isChain_cons.mp h.apart).1
    cases h.each _ List.mem_cons_self with
    | text nonempty kept =>
      exact .text (fun he => nonempty (String.append_eq_empty_iff.mp he).1) (kept.append value)
  · rw [hnew]
    exact h.cons (.text hvalue hkept) fun u hu => .inr (hother u hu)

theorem reverse (h : NormalAll preserve parent ts) : NormalAll preserve parent ts.reverse := by
  refine ⟨fun t ht => h.each t (List.mem_reverse.mp ht), List.isChain_reverse.mpr ?_⟩
  exact h.apart.imp fun _ _ => Apart.symm

end NormalAll

end Tree

namespace Builder

variable {preserve : Bool}

/-- The trees that a builder has finished are normal, and so will be the open elements. -/
structure Normal (preserve : Bool) (b : Builder) : Prop where
  distinct : ∀ e ∈ b.opened, e.attributes.names.Nodup
  closed : ∀ e ∈ b.opened, isVoid e.name = false
  inside : ∀ e ∈ b.opened, Tree.NormalAll preserve (some e.name) e.children
  roots : Tree.NormalAll preserve none b.roots

namespace Normal

variable {b : Builder} {e : OpenElement} {rest : List OpenElement} {t : Tree} {ts : List Tree}

theorem siblings (h : b.Normal preserve) : Tree.NormalAll preserve b.parent b.siblings := by
  unfold Builder.siblings Builder.parent
  split
  · rename_i hnone
    rw [hnone]
    exact h.roots
  · rename_i e rest he
    rw [he]
    exact h.inside e (by simp [he])

theorem withSiblings (h : b.Normal preserve) (hts : Tree.NormalAll preserve b.parent ts) :
    (b.withSiblings ts).Normal preserve := by
  unfold Builder.withSiblings
  split
  · rename_i hnone
    rw [Builder.parent, hnone] at hts
    exact ⟨h.distinct, h.closed, h.inside, hts⟩
  · rename_i e rest he
    rw [Builder.parent, he] at hts
    have hdistinct := h.distinct
    have hclosed := h.closed
    have hinside := h.inside
    rw [he, List.forall_mem_cons] at hdistinct hclosed hinside
    exact ⟨List.forall_mem_cons.mpr hdistinct, List.forall_mem_cons.mpr hclosed,
      List.forall_mem_cons.mpr ⟨hts, hinside.2⟩, h.roots⟩

theorem addOther (h : b.Normal preserve) (ht : t.Normal preserve b.parent)
    (hother : t.isText = false) : (b.add t).Normal preserve :=
  h.withSiblings (h.siblings.cons ht fun _ _ => .inl hother)

theorem report (h : b.Normal preserve) (ds : List Diagnostic) : (b.report ds).Normal preserve :=
  ⟨h.distinct, h.closed, h.inside, h.roots⟩

theorem addText {value : String} (h : b.Normal preserve) (hvalue : value ≠ "")
    (hkept : IsKept preserve b.parent value) : (b.addText value).Normal preserve := by
  rw [addText_eq]
  exact h.withSiblings (h.siblings.withText hvalue hkept)

theorem tree (h : b.Normal preserve) (he : e ∈ b.opened) (parent : Option String) :
    e.tree.Normal preserve parent := by
  have hinside := (h.inside e he).reverse
  refine .element (h.distinct e he) (fun hvoid => ?_) hinside.each hinside.apart
  rw [h.closed e he] at hvoid
  cases hvoid

theorem close (h : b.Normal preserve) (n : Nat) : (b.close n).Normal preserve := by
  induction n generalizing b with
  | zero => exact h
  | succ n ih =>
    refine ih ?_
    unfold Builder.closeInnermost
    split
    · exact h
    · rename_i e rest he
      have hrest : Builder.Normal preserve { b with opened := rest } :=
        ⟨fun e' he' => h.distinct e' (by simp [he, he']),
          fun e' he' => h.closed e' (by simp [he, he']),
          fun e' he' => h.inside e' (by simp [he, he']), h.roots⟩
      exact hrest.addOther (h.tree (by simp [he]) _) rfl

theorem push {cs : List Char} {i : Item} (h : b.Normal preserve) (hi : i.SaidIn cs) :
    (b.push preserve i).Normal preserve := by
  cases i with
  | opening name attributes selfClosing span =>
    have hdistinct : attributes.names.Nodup := NamedAttributes.nodup hi
    unfold Builder.push
    dsimp only
    split_ifs with hleaf
    · exact h.addOther (.element hdistinct (fun _ => rfl) (by simp) .nil) rfl
    · rw [Bool.not_eq_true, Bool.or_eq_false_iff] at hleaf
      exact ⟨List.forall_mem_cons.mpr ⟨hdistinct, h.distinct⟩,
        List.forall_mem_cons.mpr ⟨hleaf.2, h.closed⟩,
        List.forall_mem_cons.mpr ⟨.nil, h.inside⟩, h.roots⟩
  | closing name span =>
    unfold Builder.push
    dsimp only
    split
    · exact h.report _
    · exact (h.report _).close _
  | text value =>
    unfold Builder.push
    dsimp only
    split_ifs with hempty hdropped
    · exact h
    · exact h
    · refine h.addText (fun he => hempty (by rw [he]; rfl)) (isKept_iff.mpr ?_)
      simpa using hdropped
  | comment value => exact h.addOther .comment rfl

theorem start : Builder.start.Normal preserve :=
  ⟨by simp [Builder.start], by simp [Builder.start], by simp [Builder.start], .nil⟩

theorem foldl {cs : List Char} {items : List Item} (h : b.Normal preserve)
    (hitems : ∀ i ∈ items, i.SaidIn cs) :
    (items.foldl (Builder.push preserve) b).Normal preserve := by
  induction items generalizing b with
  | nil => exact h
  | cons i items ih =>
    rw [List.forall_mem_cons] at hitems
    exact ih (h.push hitems.1) hitems.2

theorem run {cs : List Char} {items : List Item} (hitems : ∀ i ∈ items, i.SaidIn cs) :
    (Builder.run preserve items).Normal preserve :=
  ((start.foldl hitems).report _).close _

end Normal

end Builder

theorem items_said (text url : String) :
    ∀ i ∈ Item.ofTokens (lex text url).tokens, i.SaidIn (unifyLineEnds text.toList) :=
  ofTokens_said (lexFrom_said ⟨.start, unifyLineEnds text.toList⟩)

end LiveMarkup
