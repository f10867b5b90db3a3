import LiveMarkup.Proofs.Markup.Lexing
import Mathlib.Data.List.Chain

/-!
# What the parser builds

Where neither the lexer nor the builder finds an error, every tree that is finished fits its place,
and so does every open element if it is closed now.
-/

namespace LiveMarkup

/-! ### Reading on -/

def readOn (preserve : Bool) (k : Cursor) (b : Builder) : List Diagnostic × Builder :=
  ((lexFrom k).2, (Item.ofTokens (lexFrom k).1).foldl (Builder.push preserve) b)

section

variable {preserve : Bool} {k : Cursor}

theorem readOn_end (hk : k.rest = []) (b : Builder) : readOn preserve k b = ([], b) := by
  rw [readOn, lexFrom, dif_pos hk]
  rfl

theorem readOn_of_gives {items : List Item} (hk : k.rest ≠ []) (h : (lexItem k).Gives items)
    (b : Builder) :
    readOn preserve k b =
      readOn preserve (lexItem k).next (items.foldl (Builder.push preserve) b) := by
  rw [readOn, lexFrom, dif_neg hk, readOn]
  dsimp only
  rw [h.errors, h.items, List.foldl_append, List.nil_append]

theorem errors_lexItem_eq_nil {b : Builder} (hk : k.rest ≠ []) (h : (readOn preserve k b).1 = []) :
    (lexItem k).errors = [] := by
  rw [readOn, lexFrom, dif_neg hk] at h
  exact (List.append_eq_nil_iff.mp h).1

end

/-! ### Trees side by side -/

namespace Tree

variable {preserve : Bool} {parent : Option String}

theorem Apart.symm {t u : Tree} (h : t.Apart u) : u.Apart t := Or.symm h

structure FitAll (preserve : Bool) (parent : Option String) (ts : List Tree) : Prop where
  fits : ∀ t ∈ ts, t.Fits preserve parent
  apart : ts.IsChain Apart

theorem FitAll.nil : FitAll preserve parent [] := ⟨by simp, .nil⟩

theorem FitAll.cons {t : Tree} {ts : List Tree} (h : FitAll preserve parent ts)
    (ht : t.Fits preserve parent) (hapart : ∀ u ∈ ts.head?, t.Apart u) :
    FitAll preserve parent (t :: ts) :=
  ⟨fun u hu => (List.mem_cons.mp hu).elim (fun e => e ▸ ht) (h.fits u),
    List.isChain_cons.mpr ⟨hapart, h.apart⟩⟩

theorem FitAll.tail {t : Tree} {ts : List Tree} (h : FitAll preserve parent (t :: ts)) :
    FitAll preserve parent ts :=
  ⟨fun u hu => h.fits u (List.mem_cons_of_mem _ hu), (List.isChain_cons.mp h.apart).2⟩

theorem FitAll.reverse {ts : List Tree} (h : FitAll preserve parent ts) :
    FitAll preserve parent ts.reverse := by
  refine ⟨fun t ht => h.fits t (List.mem_reverse.mp ht), List.isChain_reverse.mpr ?_⟩
  exact h.apart.imp fun _ _ => Apart.symm

theorem Fits.inside_markup {name : String} {attributes : Table String} {ts : List Tree}
    (h : Fits preserve parent (.node ⟨.element name, attributes, none⟩ ts))
    (hclosed : isVoid name = false) (hcontent : tagContent name = .markup) :
    FitAll preserve (some name) ts := by
  cases h with
  | void named written void =>
    rw [hclosed] at void
    cases void
  | verbatim named written content inside => exact absurd hcontent content
  | markup named written closed content inside apart => exact ⟨inside, apart⟩

/-- An element that may have any content fits everywhere with any trees that fit in it. -/
theorem Fits.refilled {name : String} {attributes : Table String} {ts us : List Tree}
    (h : Fits preserve parent (.node ⟨.element name, attributes, none⟩ ts))
    (hclosed : isVoid name = false) (hcontent : tagContent name = .markup)
    (hus : FitAll preserve (some name) us) (parent' : Option String) :
    Fits preserve parent' (.node ⟨.element name, attributes, none⟩ us) := by
  cases h with
  | void named written _ | verbatim named written _ _ | markup named written _ _ _ _ =>
    exact .markup named written hclosed hcontent hus.fits hus.apart

theorem isVoid_of_tagContent {name : String} (h : tagContent name ≠ .markup) :
    isVoid name = false := by
  unfold tagContent at h
  unfold isVoid
  split at h
  case h_5 => exact absurd rfl h
  all_goals
    rename_i heq
    rw [heq]
    decide

theorem Fits.emptyElement {name : String} {attributes : Table String} (named : IsTagName name)
    (written : AreAttributes attributes) :
    Fits preserve parent (.leaf ⟨.element name, attributes, none⟩) := by
  by_cases hcontent : tagContent name = .markup
  · cases hvoid : isVoid name with
    | true => exact .void named written hvoid
    | false => exact .markup named written hvoid hcontent (by simp) .nil
  · exact @Fits.verbatim preserve parent name attributes none named written hcontent (by simp)

/-- A text at the end of the trees, which are in reverse. It joins the text right before it. -/
def withText (value : String) : List Tree → List Tree
  | node ⟨.text before, attributes, control⟩ cs :: ts =>
    node ⟨.text (before ++ value), attributes, control⟩ cs :: ts
  | ts => leaf (.text value) :: ts

theorem withText_of_not_text {value : String} {ts : List Tree}
    (h : ∀ t ∈ ts.head?, t.isText = false) : withText value ts = leaf (.text value) :: ts := by
  unfold withText
  split
  · cases h _ rfl
  · rfl

/-- A text joins the one before it or comes behind trees that are no texts. -/
theorem withText_cases (value : String) (ts : List Tree) :
    (∃ before attributes control cs rest, ts = node ⟨.text before, attributes, control⟩ cs :: rest ∧
      withText value ts = node ⟨.text (before ++ value), attributes, control⟩ cs :: rest) ∨
    (∀ t ∈ ts.head?, t.isText = false) ∧ withText value ts = leaf (.text value) :: ts := by
  by_cases hother : ∀ t ∈ ts.head?, t.isText = false
  · exact .inr ⟨hother, withText_of_not_text hother⟩
  · simp only [not_forall] at hother
    obtain ⟨t, ht, htext⟩ := hother
    obtain ⟨rest, rfl⟩ := List.head?_eq_some_iff.mp ht
    obtain ⟨⟨content, attributes, control⟩, cs⟩ := t
    cases content with
    | text before => exact .inl ⟨before, attributes, control, cs, rest, rfl, rfl⟩
    | element | comment => exact absurd rfl htext

theorem FitAll.withText {value : String} {ts : List Tree} (h : FitAll preserve parent ts)
    (hvalue : value ≠ "") (hkept : IsKept preserve parent value) :
    FitAll preserve parent (withText value ts) := by
  rcases withText_cases value ts with ⟨before, attributes, control, cs, rest, rfl, hjoined⟩ |
    ⟨hother, hnew⟩
  · rw [hjoined]
    refine h.tail.cons ?_ (List.isChain_cons.mp h.apart).1
    cases h.fits _ List.mem_cons_self with
    | text nonempty kept =>
      exact .text (fun he => nonempty (String.append_eq_empty_iff.mp he).1) (kept.append value)
  · rw [hnew]
    exact h.cons (.text hvalue hkept) fun u hu => .inr (hother u hu)

end Tree

namespace Builder

/-- The name of the innermost open element. -/
def parent (b : Builder) : Option String := b.opened.head?.map (·.name)

theorem withSiblings_siblings (b : Builder) : b.withSiblings b.siblings = b := by
  obtain ⟨opened, roots, errors⟩ := b
  cases opened <;> rfl

theorem add_withSiblings (b : Builder) (ts : List Tree) (t : Tree) :
    (b.withSiblings ts).add t = b.withSiblings (t :: ts) := by
  obtain ⟨opened, roots, errors⟩ := b
  cases opened <;> rfl

theorem addText_eq (b : Builder) (value : String) :
    b.addText value = b.withSiblings (Tree.withText value b.siblings) := by
  unfold addText
  split
  · rename_i heq
    rw [heq, Tree.withText]
  · rename_i hno
    rw [add, Tree.withText]
    exact hno

structure Sound (preserve : Bool) (b : Builder) : Prop where
  closed : ∀ e ∈ b.opened, isVoid e.name = false
  opened : ∀ e ∈ b.opened, ∀ parent, e.tree.Fits preserve parent
  outer : ∀ e ∈ b.opened.tail, tagContent e.name = .markup
  roots : Tree.FitAll preserve none b.roots

/-- The innermost open element may have any content. -/
def InMarkup (b : Builder) : Prop := ∀ name ∈ b.parent, tagContent name = .markup

/-- The innermost open element may have any content, or the text that is left ends it. -/
def Awaits (b : Builder) (rest : List Char) : Prop :=
  ∀ name ∈ b.parent, tagContent name = .markup ∨ rest = [] ∨ closesRaw name rest = true

theorem InMarkup.awaits {b : Builder} (h : b.InMarkup) (rest : List Char) : b.Awaits rest :=
  fun name hname => .inl (h name hname)

theorem parent_withSiblings (b : Builder) (ts : List Tree) :
    (b.withSiblings ts).parent = b.parent := by
  unfold withSiblings
  split
  · rfl
  · rename_i e rest he
    rw [parent, parent, he]
    rfl

theorem keepsSpace_eq (b : Builder) :
    b.keepsSpace = true ↔ ∃ name ∈ b.parent, LiveMarkup.keepsSpace name = true := by
  unfold keepsSpace parent
  split
  · rename_i h
    simp [h]
  · rename_i e rest h
    simp [h]

namespace Sound

variable {preserve : Bool} {b : Builder}

theorem siblings (h : b.Sound preserve) (hm : b.InMarkup) :
    Tree.FitAll preserve b.parent b.siblings := by
  unfold Builder.siblings Builder.parent
  split
  · rename_i hnone
    rw [hnone]
    exact h.roots
  · rename_i e rest he
    have hmem : e ∈ b.opened := by simp [he]
    have hinside := (h.opened e hmem none).inside_markup (h.closed e hmem)
      (hm e.name (by simp [Builder.parent, he]))
    rw [he]
    simpa using hinside.reverse

theorem withSiblings {ts : List Tree} (h : b.Sound preserve) (hm : b.InMarkup)
    (hts : Tree.FitAll preserve b.parent ts) : (b.withSiblings ts).Sound preserve := by
  unfold Builder.withSiblings
  split
  · rename_i hnone
    rw [Builder.parent, hnone] at hts
    exact ⟨h.closed, h.opened, h.outer, hts⟩
  · rename_i e rest he
    have hmem : e ∈ b.opened := by simp [he]
    have hcontent : tagContent e.name = .markup := hm e.name (by simp [Builder.parent, he])
    rw [Builder.parent, he] at hts
    have htree : ∀ parent, (OpenElement.tree { e with children := ts }).Fits preserve parent :=
      (h.opened e hmem none).refilled (h.closed e hmem) hcontent hts.reverse
    refine ⟨fun e' he' => ?_, fun e' he' => ?_, ?_, h.roots⟩
    · rcases List.mem_cons.mp he' with rfl | he'
      · exact h.closed e hmem
      · exact h.closed e' (by simp [he, he'])
    · rcases List.mem_cons.mp he' with rfl | he'
      · exact htree
      · exact h.opened e' (by simp [he, he'])
    · have houter := h.outer
      rwa [he] at houter

theorem add {t : Tree} (h : b.Sound preserve) (hm : b.InMarkup) (ht : t.Fits preserve b.parent)
    (hapart : ∀ u ∈ b.siblings.head?, t.Apart u) : (b.add t).Sound preserve :=
  h.withSiblings hm ((h.siblings hm).cons ht hapart)

theorem addOther {t : Tree} (h : b.Sound preserve) (hm : b.InMarkup)
    (ht : t.Fits preserve b.parent) (hother : t.isText = false) :
    (b.add t).Sound preserve ∧ (b.add t).InMarkup := by
  refine ⟨h.add hm ht fun u _ => .inl hother, ?_⟩
  rw [Builder.InMarkup, Builder.add, parent_withSiblings]
  exact hm

theorem report (h : b.Sound preserve) (ds : List Diagnostic) : (b.report ds).Sound preserve :=
  ⟨h.closed, h.opened, h.outer, h.roots⟩

theorem addText {value : String} (h : b.Sound preserve) (hm : b.InMarkup) (hvalue : value ≠ "")
    (hkept : IsKept preserve b.parent value) : (b.addText value).Sound preserve := by
  rw [addText_eq]
  exact h.withSiblings hm ((h.siblings hm).withText hvalue hkept)

theorem outside {e : OpenElement} {rest : List OpenElement} (h : b.Sound preserve)
    (he : b.opened = e :: rest) : Builder.Sound preserve { b with opened := rest } ∧
      Builder.InMarkup { b with opened := rest } := by
  have houter : ∀ e ∈ rest, tagContent e.name = .markup := by simpa [he] using h.outer
  refine ⟨⟨fun e' he' => h.closed e' (by simp [he, he']),
    fun e' he' => h.opened e' (by simp [he, he']),
    fun e' he' => houter e' (List.mem_of_mem_tail he'), h.roots⟩, fun name hname => ?_⟩
  obtain ⟨e', he', rfl⟩ := Option.map_eq_some_iff.mp hname
  exact houter e' (List.mem_of_mem_head? he')

theorem closeInnermost (h : b.Sound preserve) :
    b.closeInnermost.Sound preserve ∧ b.closeInnermost.InMarkup := by
  unfold Builder.closeInnermost
  split
  · rename_i he
    exact ⟨h, by simp [Builder.InMarkup, Builder.parent, he]⟩
  · rename_i e rest he
    obtain ⟨hrest, hm⟩ := h.outside he
    exact hrest.addOther hm (h.opened e (by simp [he]) _) rfl

end Sound

variable {preserve : Bool}

theorem errors_withSiblings (b : Builder) (ts : List Tree) :
    (b.withSiblings ts).errors = b.errors := by
  unfold withSiblings
  split <;> rfl

theorem errors_addText (b : Builder) (value : String) : (b.addText value).errors = b.errors := by
  rw [addText_eq, errors_withSiblings]

theorem errors_close (b : Builder) (n : Nat) : (b.close n).errors = b.errors := by
  induction n generalizing b with
  | zero => rfl
  | succ n ih =>
    rw [close, ih, closeInnermost]
    split
    · rfl
    · exact errors_withSiblings _ _

section

variable {α : Type} {f : OpenElement → α}
  (hf : ∀ (e : OpenElement) us, f { e with children := us } = f e)
include hf

theorem opened_map_withSiblings (b : Builder) (ts : List Tree) :
    (b.withSiblings ts).opened.map f = b.opened.map f := by
  unfold withSiblings
  split
  · rfl
  · rename_i e rest he
    rw [he, List.map_cons, List.map_cons, hf]

theorem opened_map_addText (b : Builder) (value : String) :
    (b.addText value).opened.map f = b.opened.map f := by
  rw [addText_eq, opened_map_withSiblings hf]

theorem opened_map_close (b : Builder) (n : Nat) :
    (b.close n).opened.map f = (b.opened.drop n).map f := by
  induction n generalizing b with
  | zero => rfl
  | succ n ih =>
    have hinnermost : b.closeInnermost.opened.map f = b.opened.tail.map f := by
      unfold closeInnermost
      split
      · rename_i hnone
        rw [hnone, List.tail_nil]
      · rename_i e rest he
        rw [add, opened_map_withSiblings hf, he, List.tail_cons]
    rw [close, ih, List.map_drop, hinnermost, ← List.map_drop, List.drop_tail]

end

theorem opened_finish (b : Builder) : b.finish.opened = [] := by
  have hnames : b.finish.opened.map OpenElement.name = [] := by
    rw [finish, opened_map_close fun _ _ => rfl]
    simp [report]
  exact List.map_eq_nil_iff.mp hnames

theorem errors_prefix_push (b : Builder) (i : Item) : b.errors <+: (b.push preserve i).errors := by
  unfold push
  split
  · split
    · rw [add, errors_withSiblings]
    · exact List.prefix_refl _
  · split
    · exact List.prefix_append _ _
    · rw [errors_close]
      exact List.prefix_append _ _
  · split_ifs
    · exact List.prefix_refl _
    · exact List.prefix_refl _
    · rw [errors_addText]
  · rw [add, errors_withSiblings]

theorem errors_prefix_foldl (b : Builder) (items : List Item) :
    b.errors <+: (items.foldl (push preserve) b).errors := by
  induction items generalizing b with
  | nil => exact List.prefix_refl _
  | cons i items ih => exact (b.errors_prefix_push i).trans (ih _)

theorem isKept_iff {b : Builder} {value : String} :
    IsKept preserve b.parent value ↔
      (!preserve && value.toList.all isMarkupSpace && !b.keepsSpace) = false := by
  rw [IsKept, ← keepsSpace_eq]
  cases preserve <;> cases b.keepsSpace <;> simp

theorem Sound.text {b : Builder} (h : b.Sound preserve) (hm : b.InMarkup) (value : String) :
    (b.push preserve (.text value)).Sound preserve := by
  unfold push
  dsimp only
  split_ifs with hempty hdropped
  · exact h
  · exact h
  · refine h.addText hm (fun he => hempty (by rw [he]; rfl)) (isKept_iff.mpr ?_)
    simpa using hdropped

theorem parent_push_text (b : Builder) (value : String) :
    (b.push preserve (.text value)).parent = b.parent := by
  unfold push
  dsimp only
  split_ifs
  · rfl
  · rfl
  · rw [addText_eq, parent_withSiblings]

theorem Sound.opening {b : Builder} {e : OpenElement} (h : b.Sound preserve) (hm : b.InMarkup)
    (hclosed : isVoid e.name = false) (htree : ∀ parent, e.tree.Fits preserve parent) :
    Sound preserve { b with opened := e :: b.opened } := by
  refine ⟨fun e' he' => ?_, fun e' he' => ?_, fun e' he' => ?_, h.roots⟩
  · rcases List.mem_cons.mp he' with rfl | he'
    · exact hclosed
    · exact h.closed e' he'
  · rcases List.mem_cons.mp he' with rfl | he'
    · exact htree
    · exact h.opened e' he'
  · cases hopened : b.opened with
    | nil => simp [hopened] at he'
    | cons e₀ rest =>
      rw [List.tail_cons, hopened] at he'
      rcases List.mem_cons.mp he' with rfl | he'
      · exact hm e'.name (by simp [parent, hopened])
      · exact h.outer e' (by simpa [hopened] using he')

theorem Sound.closing {b : Builder} {name : String} {span : Span} (h : b.Sound preserve)
    (he : (b.push preserve (.closing name span)).errors = []) :
    (b.push preserve (.closing name span)).Sound preserve ∧
      (b.push preserve (.closing name span)).InMarkup := by
  unfold push at he ⊢
  dsimp only at he ⊢
  split at he
  · exact absurd (List.append_eq_nil_iff.mp he).2 (by simp)
  · rename_i i hi
    rw [errors_close] at he
    have hnone : b.opened.take i = [] := by simpa using (List.append_eq_nil_iff.mp he).2
    have hlt : i < b.opened.length := (List.findIdx?_eq_some_iff_findIdx_eq.mp hi).1
    obtain rfl : i = 0 := by
      have hlength := congrArg List.length hnone
      rw [List.length_take, List.length_nil] at hlength
      omega
    exact (h.report _).closeInnermost

theorem push_text {b : Builder} {value : String} (hvalue : value ≠ "")
    (hkept : IsKept preserve b.parent value) (hapart : ∀ u ∈ b.siblings.head?, u.isText = false) :
    b.push preserve (.text value) = b.add (.leaf (.text value)) := by
  rw [push, if_neg (by simpa using hvalue), if_neg (by simpa using isKept_iff.mp hkept), addText_eq,
    Tree.withText_of_not_text hapart, add]

theorem push_void {b : Builder} {name : String} {attributes : Table String} {span : Span}
    (h : isVoid name = true) : b.push preserve (.opening name attributes false span) =
      b.add (.leaf ⟨.element name, attributes, none⟩) := by
  rw [push, h]
  rfl

theorem push_opening {b : Builder} {name : String} {attributes : Table String} {span : Span}
    (h : isVoid name = false) : b.push preserve (.opening name attributes false span) =
      { b with opened := ⟨name, attributes, span, []⟩ :: b.opened } := by
  rw [push, h]
  rfl

theorem push_verbatim {b : Builder} {name : String} {attributes : Table String} {span : Span}
    {value? : Option String} (content : tagContent name ≠ .markup)
    (inside : ∀ value ∈ value?, IsVerbatim name value) :
    (.opening name attributes false span :: value?.toList.map .text : List Item).foldl
        (push preserve) b =
      { b with opened := ⟨name, attributes, span,
          value?.toList.map fun value => .leaf (.text value)⟩ :: b.opened } := by
  rw [List.foldl_cons, push_opening (Tree.isVoid_of_tagContent content)]
  cases value? with
  | none => rfl
  | some value =>
    have hkept : IsKept preserve (some name) value :=
      .inr (.inl ⟨name, rfl, by simp [LiveMarkup.keepsSpace, content]⟩)
    exact push_text (inside value rfl).nonempty hkept (by simp [siblings])

theorem Sound.found {b : Builder} {rest : List Char} {items : List Item} (h : b.Sound preserve)
    (hm : b.InMarkup) (hfound : Item.Found rest items)
    (he : (items.foldl (push preserve) b).errors = []) :
    (items.foldl (push preserve) b).Sound preserve ∧
      (items.foldl (push preserve) b).Awaits rest := by
  cases hfound with
  | nothing => exact ⟨h, hm.awaits rest⟩
  | text value =>
    refine ⟨h.text hm value, InMarkup.awaits ?_ rest⟩
    rw [List.foldl_cons, List.foldl_nil, InMarkup, parent_push_text]
    exact hm
  | comment valid =>
    obtain ⟨hsound, hmarkup⟩ := h.addOther hm (.comment valid) rfl
    exact ⟨hsound, hmarkup.awaits rest⟩
  | closing name span =>
    obtain ⟨hsound, hmarkup⟩ := h.closing he
    exact ⟨hsound, hmarkup.awaits rest⟩
  | empty named written =>
    obtain ⟨hsound, hmarkup⟩ := h.addOther hm (.emptyElement named written) rfl
    exact ⟨hsound, hmarkup.awaits rest⟩
  | @opening name attributes span named written content =>
    cases hvoid : isVoid name with
    | true =>
      rw [List.foldl_cons, List.foldl_nil, push_void hvoid]
      obtain ⟨hsound, hmarkup⟩ := h.addOther hm (.emptyElement named written) rfl
      exact ⟨hsound, hmarkup.awaits rest⟩
    | false =>
      rw [List.foldl_cons, List.foldl_nil, push_opening hvoid]
      refine ⟨h.opening hm hvoid fun parent => .emptyElement named written, InMarkup.awaits ?_ rest⟩
      rintro _ ⟨⟩
      exact content
  | @verbatim name attributes span value? named written content inside last =>
    have hvoid := Tree.isVoid_of_tagContent content
    rw [push_verbatim content inside]
    refine ⟨h.opening hm hvoid fun parent => ?_, ?_⟩
    · have htree := @Tree.Fits.verbatim preserve parent _ _ _ named written content inside
      cases value? <;> exact htree
    · rintro _ ⟨⟩
      exact .inr last

theorem Sound.step {k : Cursor} {b : Builder} (hreturn : '\r' ∉ k.rest) (hk : k.rest ≠ [])
    (h : b.Sound preserve) (hawaits : b.Awaits k.rest) (hlexed : (lexItem k).errors = []) :
    ∃ items, (lexItem k).Gives items ∧ ((items.foldl (push preserve) b).errors = [] →
      (items.foldl (push preserve) b).Sound preserve ∧
        (items.foldl (push preserve) b).Awaits (lexItem k).next.rest) := by
  by_cases hm : b.InMarkup
  · obtain ⟨items, hgives, hfound⟩ := lexItem_found hreturn hlexed
    exact ⟨items, hgives, h.found hm hfound⟩
  · obtain ⟨name, hname, hcontent⟩ : ∃ name ∈ b.parent, tagContent name ≠ .markup := by
      simpa [InMarkup] using hm
    have hcloses := ((hawaits name hname).resolve_left hcontent).resolve_left hk
    obtain ⟨name', span, htokens⟩ := lexItem_of_closesRaw hcloses hlexed
    have hgives : (lexItem k).Gives [.closing name' span] :=
      ⟨hlexed, fun rest => by rw [htokens]; rfl⟩
    exact ⟨_, hgives, fun he => (h.closing he).imp_right fun hmarkup => hmarkup.awaits _⟩

/-- Reading on to the end without an error leaves all trees in their places. -/
theorem Sound.readOn {k : Cursor} {b : Builder} (hreturn : '\r' ∉ k.rest) (h : b.Sound preserve)
    (hawaits : b.Awaits k.rest) (hlexed : (readOn preserve k b).1 = [])
    (hbuilt : (readOn preserve k b).2.errors = []) : (readOn preserve k b).2.Sound preserve := by
  induction hn : k.rest.length using Nat.strong_induction_on generalizing k b with
  | _ n ih =>
    by_cases hk : k.rest = []
    · rwa [readOn_end hk]
    · obtain ⟨items, hgives, hstep⟩ :=
        h.step hreturn hk hawaits (errors_lexItem_eq_nil hk hlexed)
      rw [readOn_of_gives hk hgives] at hlexed hbuilt ⊢
      have hitems : (items.foldl (push preserve) b).errors = [] :=
        List.prefix_nil.mp (hbuilt ▸ errors_prefix_foldl _ _)
      obtain ⟨hsound, hawaits'⟩ := hstep hitems
      exact ih _ (hn ▸ length_lexItem_lt hk)
        (fun hmem => hreturn ((lexItem_within k).rest.subset hmem)) hsound hawaits' hlexed hbuilt rfl

theorem finish_of_no_errors {b : Builder} (h : b.finish.errors = []) :
    b.errors = [] ∧ b.opened = [] ∧ b.finish.roots = b.roots := by
  rw [finish, errors_close] at h
  obtain ⟨herrors, hunclosed⟩ := List.append_eq_nil_iff.mp h
  have hopened : b.opened = [] := by simpa using hunclosed
  refine ⟨herrors, hopened, ?_⟩
  rw [finish, hopened]
  rfl

end Builder

theorem return_not_mem_unifyLineEnds (cs : List Char) : '\r' ∉ unifyLineEnds cs := by
  fun_induction unifyLineEnds cs with
  | case1 => simp
  | case2 rest ih | case3 rest _ ih => simpa using ih
  | case4 c rest _ hne ih =>
    rw [List.mem_cons, not_or]
    exact ⟨fun he => hne he.symm, ih⟩

end LiveMarkup
