import LiveMarkup.Proofs.Markup.NormalForm

/-!
# What becomes of white space

A source is read with white space kept and without. The trees that come without it are those that
come with it less the texts of white space only, unless such a text and another one join where white
space is not kept. Then the text that they become stays, but without the white space.
-/

namespace LiveMarkup

def isSpaceOnly (value : String) : Bool := value.toList.all isMarkupSpace

namespace Tree

def isSpace : Tree → Bool
  | node ⟨.text value, _, _⟩ _ => isSpaceOnly value
  | _ => false

mutual

/-- The tree without the texts of white space only, but for those in elements that keep them. -/
def stripped : Tree → Tree
  | node l ts => node l (strippedAll (decide (l.name.toLower ∈ spaceKeepers)) ts)

def strippedAll (keeps : Bool) : List Tree → List Tree
  | [] => []
  | t :: ts =>
    if t.isSpace && !keeps then strippedAll keeps ts else stripped t :: strippedAll keeps ts

end

/-- The other trees are the stripped ones, less `n` characters that their texts have lost. -/
inductive Thinned : Bool → List Tree → List Tree → Nat → Prop where
  | nil {keeps : Bool} : Thinned keeps [] [] 0
  | dropped {t : Tree} {ts us : List Tree} {n : Nat} (blank : t.isSpace = true)
      (rest : Thinned false ts us n) : Thinned false (t :: ts) us n
  | text {keeps : Bool} {ts us : List Tree} {value part : String} {m n : Nat}
      (stays : keeps = true ∨ isSpaceOnly value = false) (sub : part.toList.Sublist value.toList)
      (lost : value.length = part.length + m) (rest : Thinned keeps ts us n) :
      Thinned keeps (leaf (.text value) :: ts) (leaf (.text part) :: us) (m + n)
  | node {keeps : Bool} {l : Label} {ts us cs ds : List Tree} {m n : Nat}
      (other : l.content.isText = false) (inside : Thinned (keepsSpace l.name) cs ds m)
      (rest : Thinned keeps ts us n) :
      Thinned keeps (node l cs :: ts) (node l ds :: us) (m + n)

namespace Thinned

variable {keeps : Bool} {ts us ts' us' : List Tree} {m n : Nat}

theorem append (h : Thinned keeps ts us m) (h' : Thinned keeps ts' us' n) :
    Thinned keeps (ts ++ ts') (us ++ us') (m + n) := by
  induction h with
  | nil => rwa [Nat.zero_add]
  | dropped blank _ ih => exact .dropped blank (ih h')
  | text stays sub lost _ ih =>
    rw [Nat.add_assoc]
    exact .text stays sub lost (ih h')
  | node other inside _ _ ih =>
    rw [Nat.add_assoc]
    exact .node other inside (ih h')

theorem reverse (h : Thinned keeps ts us n) : Thinned keeps ts.reverse us.reverse n := by
  induction h with
  | nil => exact .nil
  | dropped blank _ ih => simpa using ih.append (.dropped blank .nil)
  | text stays sub lost _ ih =>
    rw [Nat.add_comm]
    simpa using ih.append (.text stays sub lost .nil)
  | node other inside _ _ ih =>
    rw [Nat.add_comm]
    simpa using ih.append (.node other inside .nil)

end Thinned

theorem keepsSpace_eq_decide (name : String) :
    keepsSpace name = decide (name.toLower ∈ spaceKeepers) := by
  rw [Bool.eq_iff_iff, keepsSpace_iff, decide_eq_true_iff]

theorem isSpace_of_not_text {l : Label} {cs : List Tree} (h : l.content.isText = false) :
    (Tree.node l cs).isSpace = false := by
  obtain ⟨content, attributes, control⟩ := l
  cases content with
  | text value => cases h
  | element | comment => rfl

/-- Nothing is lost just where the other trees are the stripped ones. -/
theorem Thinned.eq_iff {keeps : Bool} {ts us : List Tree} {n : Nat} (h : Thinned keeps ts us n) :
    us = strippedAll keeps ts ↔ n = 0 := by
  induction h with
  | nil => simp [strippedAll]
  | dropped blank _ ih => simpa [strippedAll, blank] using ih
  | @text keeps ts us value part m n stays sub lost _ ih =>
    have hstays : ((leaf (.text value)).isSpace && !keeps) = false := by
      rcases stays with rfl | hblank
      · exact Bool.and_false _
      · rw [show (leaf (.text value)).isSpace = false from hblank, Bool.false_and]
    have hlost : part = value ↔ m = 0 := by
      refine ⟨fun he => by rw [he] at lost; omega, fun hm => ?_⟩
      exact String.toList_inj.mp (sub.eq_of_length (by
        rw [String.length_toList, String.length_toList, lost, hm, Nat.add_zero]))
    rw [strippedAll, hstays, if_neg Bool.false_ne_true, List.cons.injEq, ih, Nat.add_eq_zero_iff,
      ← hlost]
    simp [leaf, stripped, strippedAll, Label.text]
  | @node keeps l ts us cs ds m n other _ _ ihinside ih =>
    rw [strippedAll, isSpace_of_not_text other, Bool.false_and, if_neg Bool.false_ne_true, stripped,
      List.cons.injEq, Tree.node.injEq, ← keepsSpace_eq_decide, ihinside, ih, Nat.add_eq_zero_iff]
    simp

def Mixes (value : String) (ts : List Tree) : Prop :=
  ∃ t ∈ ts.head?, t.isText = true ∧ t.isSpace ≠ isSpaceOnly value

/-- What is left of the trees when the value is added, white space being kept or not. -/
def withTextOr (keeps : Bool) (value : String) (us : List Tree) : List Tree :=
  if isSpaceOnly value && !keeps then us else withText value us

theorem isSpaceOnly_append (v w : String) :
    isSpaceOnly (v ++ w) = (isSpaceOnly v && isSpaceOnly w) := by
  rw [isSpaceOnly, String.toList_append, List.all_append]
  rfl

namespace Thinned

variable {keeps : Bool} {ts us : List Tree} {value : String} {n : Nat}

theorem head_not_text (h : Thinned keeps ts us n) (hts : ∀ t ∈ ts.head?, t.isText = false) :
    ∀ u ∈ us.head?, u.isText = false := by
  cases h with
  | nil => exact hts
  | @dropped t _ _ _ blank rest =>
    obtain ⟨⟨content, attributes, control⟩, cs⟩ := t
    cases content with
    | text => cases hts _ rfl
    | element | comment => cases blank
  | text => cases hts _ rfl
  | node other inside rest =>
    rintro u ⟨⟩
    exact other

theorem join_after_other (h : Thinned keeps ts us n) (hts : ∀ t ∈ ts.head?, t.isText = false) :
    Thinned keeps (withText value ts) (withTextOr keeps value us) n := by
  rw [withText_of_not_text hts, withTextOr]
  split_ifs with hdropped
  · rw [Bool.and_eq_true, Bool.not_eq_true'] at hdropped
    obtain ⟨hblank, rfl⟩ := hdropped
    exact .dropped hblank h
  · rw [withText_of_not_text (h.head_not_text hts), ← Nat.zero_add n]
    refine .text ?_ (.refl _) rfl h
    cases keeps
    · simpa using hdropped
    · exact .inl rfl

theorem append_text {before part : String} {m : Nat}
    (stays : keeps = true ∨ isSpaceOnly value = false ∧ isSpaceOnly before = false)
    (sub : part.toList.Sublist before.toList) (lost : before.length = part.length + m)
    (rest : Thinned keeps ts us n) :
    Thinned keeps (leaf (.text (before ++ value)) :: ts) (leaf (.text (part ++ value)) :: us)
      (m + n) := by
  refine .text (stays.imp_right fun h => ?_) ?_ ?_ rest
  · rw [isSpaceOnly_append, h.1, Bool.and_false]
  · rw [String.toList_append, String.toList_append]
    exact sub.append (.refl _)
  · rw [String.length_append, String.length_append]
    omega

theorem mixes_text {before : String} :
    Mixes value (leaf (.text before) :: ts) ↔ isSpaceOnly before ≠ isSpaceOnly value := by
  simp [Mixes, leaf, Label.text, isText, isSpace, label, Content.isText]

theorem length_pos_of_ne {s : String} (hs : s ≠ "") : 0 < s.length :=
  Nat.pos_of_ne_zero fun he => hs (String.length_eq_zero_iff.mp he)

/-- Dropped white space stays away, and a value that is none starts a text of its own. -/
theorem join_dropped (value : String) {before : String} (blank : isSpaceOnly before = true)
    (rest : Thinned false ts us n) (hbefore : before ≠ "") (hts : ∀ t ∈ ts.head?, t.isText = false) :
    ∃ m, n ≤ m ∧ Thinned false (leaf (.text (before ++ value)) :: ts) (withTextOr false value us) m ∧
      (n < m ↔ isSpaceOnly before ≠ isSpaceOnly value) := by
  cases hblank : isSpaceOnly value with
  | true =>
    refine ⟨n, Nat.le_refl n, ?_, by simp [blank]⟩
    rw [withTextOr, hblank]
    have hboth : isSpaceOnly (before ++ value) = true := by
      rw [isSpaceOnly_append, blank, hblank, Bool.and_true]
    exact .dropped hboth rest
  | false =>
    have hpos := length_pos_of_ne hbefore
    refine ⟨before.length + n, by omega, ?_, by simp [blank, hpos]⟩
    rw [withTextOr, hblank, Bool.false_and, if_neg Bool.false_ne_true,
      withText_of_not_text (rest.head_not_text hts)]
    refine .text (.inr ?_) ?_ ?_ rest
    · rw [isSpaceOnly_append, hblank, Bool.and_false]
    · rw [String.toList_append]
      exact List.sublist_append_right _ _
    · rw [String.length_append, Nat.add_comm]

theorem join_left {before part : String} {m : Nat}
    (stays : keeps = true ∨ isSpaceOnly before = false) (sub : part.toList.Sublist before.toList)
    (lost : before.length = part.length + m) (rest : Thinned keeps ts us n) (hvalue : value ≠ "") :
    ∃ k, m + n ≤ k ∧ Thinned keeps (leaf (.text (before ++ value)) :: ts)
        (withTextOr keeps value (leaf (.text part) :: us)) k ∧
      (m + n < k ↔ keeps = false ∧ isSpaceOnly before ≠ isSpaceOnly value) := by
  cases hblank : isSpaceOnly value && !keeps with
  | true =>
    rw [Bool.and_eq_true, Bool.not_eq_true'] at hblank
    obtain ⟨hblank, rfl⟩ := hblank
    have hstays : isSpaceOnly before = false := by simpa using stays
    have hpos := length_pos_of_ne hvalue
    refine ⟨m + value.length + n, by omega, ?_, by simp [hstays, hblank, hpos]⟩
    rw [withTextOr, hblank, Bool.not_false, Bool.and_true, if_pos rfl]
    refine .text (.inr ?_) ?_ ?_ rest
    · rw [isSpaceOnly_append, hstays, Bool.false_and]
    · rw [String.toList_append]
      exact sub.trans (List.sublist_append_left _ _)
    · rw [String.length_append]
      omega
  | false =>
    have hboth : withText value (leaf (.text part) :: us) = leaf (.text (part ++ value)) :: us :=
      rfl
    refine ⟨m + n, Nat.le_refl _, ?_, ?_⟩
    · rw [withTextOr, hblank, if_neg Bool.false_ne_true, hboth]
      refine append_text ?_ sub lost rest
      cases keeps with
      | true => exact .inl rfl
      | false => exact .inr ⟨by simpa using hblank, by simpa using stays⟩
    · cases keeps with
      | true => simp
      | false => simp_all

/-- A value is lost, or the white space in front of it, just where it mixes with what is there. -/
theorem join_text {before : String} (h : Thinned keeps (leaf (.text before) :: ts) us n)
    (hbefore : before ≠ "") (hvalue : value ≠ "") (hts : ∀ t ∈ ts.head?, t.isText = false) :
    ∃ m, n ≤ m ∧
      Thinned keeps (leaf (.text (before ++ value)) :: ts) (withTextOr keeps value us) m ∧
      (n < m ↔ keeps = false ∧ Mixes value (leaf (.text before) :: ts)) := by
  rw [mixes_text]
  cases h with
  | dropped blank rest =>
    obtain ⟨m, hle, hthinned, hlost⟩ := join_dropped value blank rest hbefore hts
    exact ⟨m, hle, hthinned, hlost.trans (and_iff_right rfl).symm⟩
  | text stays sub lost rest => exact join_left stays sub lost rest hvalue
  | node other => cases other

theorem join {parent : Option String} (h : Thinned keeps ts us n)
    (hts : NormalAll true parent ts) (hvalue : value ≠ "") :
    ∃ m, n ≤ m ∧ Thinned keeps (withText value ts) (withTextOr keeps value us) m ∧
      (n < m ↔ keeps = false ∧ Mixes value ts) := by
  by_cases hother : ∀ t ∈ ts.head?, t.isText = false
  · refine ⟨n, Nat.le_refl n, h.join_after_other hother, iff_of_false (Nat.lt_irrefl n) ?_⟩
    rintro ⟨-, t, ht, htext, -⟩
    rw [hother t ht] at htext
    cases htext
  · simp only [not_forall] at hother
    obtain ⟨t, ht, htext⟩ := hother
    obtain ⟨ts, rfl⟩ := List.head?_eq_some_iff.mp ht
    obtain ⟨hnormal, hapart⟩ := hts
    rw [List.isChain_cons] at hapart
    cases hnormal t List.mem_cons_self with
    | text nonempty =>
      exact h.join_text nonempty hvalue fun u hu => (hapart.1 u hu).resolve_left nofun
    | comment | element => exact absurd rfl htext

end Thinned

end Tree

namespace Builder

/-- The value would join a text in front of it, and just one of the two is white space only, which
is not kept. -/
def Mixes (b : Builder) (value : String) : Prop :=
  value ≠ "" ∧ b.keepsSpace = false ∧ Tree.Mixes value b.siblings

/-- The open elements of the other builder are the same, with what is left of their trees. -/
inductive ThinnedOpen : List OpenElement → List OpenElement → Nat → Prop where
  | nil : ThinnedOpen [] [] 0
  | cons {e : OpenElement} {es fs : List OpenElement} {us : List Tree} {m n : Nat}
      (inside : Tree.Thinned (LiveMarkup.keepsSpace e.name) e.children us m)
      (rest : ThinnedOpen es fs n) : ThinnedOpen (e :: es) ({ e with children := us } :: fs) (m + n)

/-- The other builder has the same errors, and its trees have lost `n` characters. -/
inductive Thins (b c : Builder) : Nat → Prop where
  | intro {m n : Nat} (opened : ThinnedOpen b.opened c.opened m)
      (roots : Tree.Thinned false b.roots c.roots n) (errors : c.errors = b.errors) :
      Thins b c (m + n)

theorem ThinnedOpen.map_eq {α : Type} {es fs : List OpenElement} {n : Nat}
    (h : ThinnedOpen es fs n) {f : OpenElement → α}
    (hf : ∀ (e : OpenElement) us, f { e with children := us } = f e) : fs.map f = es.map f := by
  induction h with
  | nil => rfl
  | cons inside rest ih => rw [List.map_cons, List.map_cons, ih, hf]

namespace Thins

variable {b c : Builder} {n : Nat}

theorem level (h : Thins b c n) : ∃ m k, n = m + k ∧
    Tree.Thinned b.keepsSpace b.siblings c.siblings m ∧ c.keepsSpace = b.keepsSpace ∧
    ∀ ts us j, Tree.Thinned b.keepsSpace ts us j →
      Thins (b.withSiblings ts) (c.withSiblings us) (j + k) := by
  obtain ⟨bopened, broots, berrors⟩ := b
  obtain ⟨copened, croots, cerrors⟩ := c
  cases h with
  | @intro m n opened roots errors =>
    cases opened with
    | nil =>
      refine ⟨n, 0, Nat.add_comm 0 n, roots, rfl, fun ts us j hj => ?_⟩
      rw [Nat.add_comm]
      exact .intro .nil hj errors
    | @cons e es fs us m k inside rest =>
      refine ⟨m, k + n, Nat.add_assoc m k n, inside, rfl, fun ts us j hj => ?_⟩
      rw [← Nat.add_assoc]
      exact .intro (.cons hj rest) roots errors

theorem add {l : Label} {ts us : List Tree} {j : Nat} (h : Thins b c n)
    (other : l.content.isText = false)
    (inside : Tree.Thinned (LiveMarkup.keepsSpace l.name) ts us j) :
    Thins (b.add (.node l ts)) (c.add (.node l us)) (j + n) := by
  obtain ⟨m, k, rfl, hsiblings, -, hreplace⟩ := h.level
  rw [← Nat.add_assoc]
  exact hreplace _ _ _ (.node other inside hsiblings)

theorem report (h : Thins b c n) (ds : List Diagnostic) : Thins (b.report ds) (c.report ds) n := by
  cases h with
  | intro opened roots errors =>
    exact .intro opened roots (show c.errors ++ ds = b.errors ++ ds by rw [errors])

theorem closeInnermost (h : Thins b c n) : Thins b.closeInnermost c.closeInnermost n := by
  obtain ⟨bopened, broots, berrors⟩ := b
  obtain ⟨copened, croots, cerrors⟩ := c
  cases h with
  | @intro m n opened roots errors =>
    cases opened with
    | nil => exact .intro .nil roots errors
    | @cons e es fs us m k inside rest =>
      have houtside : Thins ⟨es, broots, berrors⟩ ⟨fs, croots, cerrors⟩ (k + n) :=
        .intro rest roots errors
      rw [Nat.add_assoc]
      exact houtside.add rfl inside.reverse

theorem close (h : Thins b c n) (i : Nat) : Thins (b.close i) (c.close i) n := by
  induction i generalizing b c with
  | zero => exact h
  | succ i ih => exact ih h.closeInnermost

theorem opened_map {α : Type} (h : Thins b c n) {f : OpenElement → α}
    (hf : ∀ (e : OpenElement) us, f { e with children := us } = f e) :
    c.opened.map f = b.opened.map f := by
  cases h with
  | intro opened => exact opened.map_eq hf

theorem findIdx?_opened (h : Thins b c n) (name : String) :
    (c.opened.findIdx? fun e => sameName e.name name) =
      b.opened.findIdx? fun e => sameName e.name name := by
  have hnames := h.opened_map (f := OpenElement.name) fun _ _ => rfl
  have hmap := congrArg (List.findIdx? (sameName · name)) hnames
  rwa [List.findIdx?_map, List.findIdx?_map] at hmap

theorem unclosed_take (h : Thins b c n) (i : Nat) :
    (c.opened.take i).reverse.map OpenElement.unclosed =
      (b.opened.take i).reverse.map OpenElement.unclosed := by
  have hunclosed := h.opened_map (f := OpenElement.unclosed) fun _ _ => rfl
  rw [List.map_reverse, List.map_take, hunclosed, ← List.map_take, ← List.map_reverse]

theorem finish (h : Thins b c n) : Thins b.finish c.finish n := by
  have hlength : c.opened.length = b.opened.length := by
    simpa using congrArg List.length (h.opened_map (f := OpenElement.name) fun _ _ => rfl)
  have hunclosed := h.unclosed_take b.opened.length
  rw [← hlength, List.take_length, hlength, List.take_length] at hunclosed
  rw [Builder.finish, Builder.finish, hunclosed, hlength]
  exact (h.report _).close _

theorem pushText (h : Thins b c n) (hb : b.Normal true) (value : String) :
    ∃ m, n ≤ m ∧ Thins (b.push true (.text value)) (c.push false (.text value)) m ∧
      (n < m ↔ b.Mixes value) := by
  by_cases hvalue : value = ""
  · subst hvalue
    exact ⟨n, Nat.le_refl n, h, iff_of_false (Nat.lt_irrefl n) fun hmixes => hmixes.1 rfl⟩
  · obtain ⟨m, k, rfl, hsiblings, hkeeps, hreplace⟩ := h.level
    obtain ⟨j, hle, hjoin, hlost⟩ := hsiblings.join hb.siblings hvalue
    have hempty : value.isEmpty = false := by simpa using hvalue
    have hon : b.push true (.text value) = b.withSiblings (Tree.withText value b.siblings) := by
      rw [push, hempty, ← addText_eq]
      rfl
    have hoff : c.push false (.text value) =
        c.withSiblings (Tree.withTextOr b.keepsSpace value c.siblings) := by
      rw [push, hempty, hkeeps, Tree.withTextOr, isSpaceOnly]
      rw [Bool.not_false, Bool.true_and, if_neg Bool.false_ne_true]
      split_ifs
      · exact c.withSiblings_siblings.symm
      · exact addText_eq c value
    refine ⟨j + k, by omega, ?_, ?_⟩
    · rw [hon, hoff]
      exact hreplace _ _ _ hjoin
    · rw [Nat.add_lt_add_iff_right, hlost, Mixes]
      simp [hvalue]

theorem push (h : Thins b c n) (hb : b.Normal true) (i : Item) :
    ∃ m, n ≤ m ∧ Thins (b.push true i) (c.push false i) m ∧
      (n < m ↔ ∃ value, i = .text value ∧ b.Mixes value) := by
  have hsame : ∀ {b' c' : Builder}, Thins b' c' n → (∀ value, i ≠ .text value) →
      ∃ m, n ≤ m ∧ Thins b' c' m ∧ (n < m ↔ ∃ value, i = .text value ∧ b.Mixes value) :=
    fun h hi => ⟨n, Nat.le_refl n, h,
      iff_of_false (Nat.lt_irrefl n) fun ⟨value, he, _⟩ => hi value he⟩
  cases i with
  | text value => simpa using h.pushText hb value
  | comment value =>
    refine hsame ?_ nofun
    have hadd := h.add (l := .comment value) rfl .nil
    rwa [Nat.zero_add] at hadd
  | opening name attributes selfClosing span =>
    refine hsame ?_ nofun
    unfold Builder.push
    dsimp only
    split_ifs
    · have hadd := h.add (l := ⟨.element name, attributes, none⟩) rfl .nil
      rwa [Nat.zero_add] at hadd
    · cases h with
      | intro opened roots errors =>
        have hopened := ThinnedOpen.cons (e := ⟨name, attributes, span, []⟩) .nil opened
        rw [Nat.zero_add] at hopened
        exact .intro hopened roots errors
  | closing name span =>
    refine hsame ?_ nofun
    unfold Builder.push
    dsimp only
    rw [h.findIdx?_opened name]
    split
    · exact h.report _
    · rw [h.unclosed_take]
      exact (h.report _).close _

end Thins

/-- Somewhere in the items a text joins another one, and just one of the two is white space only,
which is not kept. -/
def JoinsSpace (b : Builder) (items : List Item) : Prop :=
  ∃ before value after, items = before ++ .text value :: after ∧
    (before.foldl (push true) b).Mixes value

theorem joinsSpace_cons {b : Builder} {i : Item} {items : List Item} :
    b.JoinsSpace (i :: items) ↔
      (∃ value, i = .text value ∧ b.Mixes value) ∨ (b.push true i).JoinsSpace items := by
  constructor
  · rintro ⟨before, value, after, he, hmixes⟩
    cases before with
    | nil => exact .inl ⟨value, (List.cons.inj he).1, hmixes⟩
    | cons j before =>
      obtain ⟨rfl, rfl⟩ := List.cons.inj he
      exact .inr ⟨before, value, after, rfl, hmixes⟩
  · rintro (⟨value, rfl, hmixes⟩ | ⟨before, value, after, rfl, hmixes⟩)
    · exact ⟨[], value, items, rfl, hmixes⟩
    · exact ⟨i :: before, value, after, rfl, hmixes⟩

theorem Thins.foldl {b c : Builder} {n : Nat} (h : Thins b c n) (hb : b.Normal true)
    {cs : List Char} {items : List Item} (hitems : ∀ i ∈ items, i.SaidIn cs) :
    ∃ m, n ≤ m ∧ Thins (items.foldl (Builder.push true) b) (items.foldl (Builder.push false) c) m ∧
      (n < m ↔ b.JoinsSpace items) := by
  induction items generalizing b c n with
  | nil =>
    refine ⟨n, Nat.le_refl n, h, iff_of_false (Nat.lt_irrefl n) ?_⟩
    rintro ⟨before, value, after, he, -⟩
    cases before <;> cases he
  | cons i items ih =>
    rw [List.forall_mem_cons] at hitems
    obtain ⟨m, hle, hpush, hlost⟩ := h.push hb i
    obtain ⟨m', hle', hrest, hlost'⟩ := ih hpush (hb.push hitems.1) hitems.2
    refine ⟨m', hle.trans hle', hrest, ?_⟩
    rw [joinsSpace_cons, ← hlost, ← hlost']
    omega

end Builder

/-- Whether white space is kept or not, the errors are the same. The trees without it are what is
left of the trees with it. -/
theorem parse_thinned (text url : String) :
    (parse text url false).errors = (parse text url true).errors ∧
    ∃ n, Tree.Thinned false (parse text url true).roots (parse text url false).roots n ∧
      (0 < n ↔ Builder.start.JoinsSpace (Item.ofTokens (lex text url).tokens)) := by
  have hstart : Builder.start.Thins Builder.start (0 + 0) := .intro .nil .nil rfl
  obtain ⟨n, -, hrun, hlost⟩ := hstart.foldl .start (items_said text url)
  rw [← hlost]
  cases hrun.finish with
  | intro opened roots errors =>
    rw [Builder.opened_finish, Builder.opened_finish] at opened
    cases opened
    rw [Nat.zero_add, Nat.zero_add]
    rw [errors_parse, errors_parse, roots_parse, roots_parse]
    refine ⟨?_, _, roots.reverse, Iff.rfl⟩
    exact congrArg ((lex text url).errors ++ ·) errors

/-- The trees that are read without white space are the stripped ones just where no white space
joins another text. -/
theorem roots_parse_eq_stripped_iff (text url : String) :
    (parse text url false).roots = Tree.strippedAll false (parse text url true).roots ↔
      ¬ Builder.start.JoinsSpace (Item.ofTokens (lex text url).tokens) := by
  obtain ⟨-, n, hthinned, hlost⟩ := parse_thinned text url
  rw [hthinned.eq_iff, ← hlost, Nat.pos_iff_ne_zero, not_not]

/-- The white space of a section between two words is lost. -/
theorem space_between_words_lost :
    (parse "<p>a<![CDATA[ ]]>b</p>" "" true).errors = [] ∧
    (parse "<p>a<![CDATA[ ]]>b</p>" "" false).roots ≠
      Tree.strippedAll false (parse "<p>a<![CDATA[ ]]>b</p>" "" true).roots := by
  have herrors : (parse "<p>a<![CDATA[ ]]>b</p>" "" true).errors.isEmpty = true := by
    decide +kernel
  have hkept : (Tree.strippedAll false (parse "<p>a<![CDATA[ ]]>b</p>" "" true).roots).map
      Tree.textContent = ["a b"] := by decide +kernel
  have hlost : (parse "<p>a<![CDATA[ ]]>b</p>" "" false).roots.map Tree.textContent = ["ab"] := by
    decide +kernel
  refine ⟨List.isEmpty_iff.mp herrors, fun h => ?_⟩
  rw [h, hkept] at hlost
  exact absurd hlost (by decide)

end LiveMarkup
