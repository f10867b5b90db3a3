import LiveMarkup.Proofs.Markup.BuiltDocument
import LiveMarkup.Proofs.Markup.TagPlaces

/-!
# Which tags belong together

Tags are told apart by their places among the items of a source. A start tag and an end tag make a
pair if the one closes the element of the other. Every other tag is an error, and is reported once.
-/

namespace LiveMarkup

/-! ### Pairs of tags -/

namespace Tags

variable {items : List Item} {p q r : Nat}

/-- The start tag at the place leaves an element open. -/
def Opens (items : List Item) (p : Nat) (name : String) (span : Span) : Prop :=
  ∃ attributes, items[p]? = some (.opening name attributes false span) ∧ isVoid name = false

/-- The end tag at `q` has the name of the start tag at `p`. -/
def Matches (items : List Item) (q p : Nat) : Prop :=
  ∃ name span name' span', items[q]? = some (.closing name span) ∧ Opens items p name' span' ∧
    sameName name' name = true

/-- Of all open elements with the name of the end tag at `q`, that of the tag at `p` is the
innermost. -/
def ClosesAmong (items : List Item) (opened : Nat → Prop) (q p : Nat) : Prop :=
  opened p ∧ Matches items q p ∧ ∀ r, opened r → Matches items q r → r ≤ p

/-- The element of the start tag at `p` is open in front of the item at `q`. An end tag closes an
element with all that are open inside. -/
def IsOpen (items : List Item) : Nat → Nat → Prop
  | 0, _ => False
  | q + 1, p =>
    (p = q ∧ ∃ name span, Opens items q name span) ∨
      (IsOpen items q p ∧ ∀ r, ClosesAmong items (IsOpen items q) q r → p < r)

/-- The end tag at `q` closes the element of the start tag at `p`. -/
def Closes (items : List Item) (q p : Nat) : Prop := ClosesAmong items (IsOpen items q) q p

theorem Opens.item_eq {name : String} {span : Span} {i : Item} (h : Opens items p name span)
    (hp : items[p]? = some i) :
    ∃ attributes, i = .opening name attributes false span ∧ isVoid name = false := by
  obtain ⟨attributes, hopens, hvoid⟩ := h
  exact ⟨attributes, Option.some.inj (hp.symm.trans hopens), hvoid⟩

theorem Opens.unique {name name' : String} {span span' : Span} (h : Opens items p name span)
    (h' : Opens items p name' span') : name = name' ∧ span = span' := by
  obtain ⟨attributes, hp, -⟩ := h
  obtain ⟨attributes', hitem, -⟩ := h'.item_eq hp
  cases hitem
  exact ⟨rfl, rfl⟩

theorem Opens.not_closing {name name' : String} {span span' : Span} (h : Opens items p name span) :
    items[p]? ≠ some (.closing name' span') := by
  intro hp
  obtain ⟨attributes, hitem, -⟩ := h.item_eq hp
  cases hitem

theorem IsOpen.lt (h : IsOpen items q p) : p < q := by
  induction q with
  | zero => exact h.elim
  | succ q ih =>
    rcases h with ⟨rfl, -⟩ | ⟨h, -⟩
    · exact Nat.lt_succ_self p
    · exact Nat.lt_succ_of_lt (ih h)

theorem IsOpen.opens (h : IsOpen items q p) : ∃ name span, Opens items p name span := by
  induction q with
  | zero => exact h.elim
  | succ q ih =>
    rcases h with ⟨rfl, h⟩ | ⟨h, -⟩
    · exact h
    · exact ih h

/-- What is open was open ever since its start tag. -/
theorem IsOpen.earlier (h : IsOpen items r p) (hp : p < q) (hr : q ≤ r) : IsOpen items q p := by
  induction r with
  | zero => exact h.elim
  | succ r ih =>
    rcases Nat.lt_or_eq_of_le hr with hlt | rfl
    · rcases h with ⟨rfl, -⟩ | ⟨h, -⟩
      · omega
      · exact ih h (Nat.le_of_lt_succ hlt)
    · exact h

theorem isOpen_succ_of_closes (h : Closes items q r) :
    IsOpen items (q + 1) p ↔ IsOpen items q p ∧ p < r := by
  obtain ⟨name, span, _, _, hq, -, -⟩ := h.2.1
  constructor
  · rintro (⟨rfl, _, _, hopens⟩ | ⟨hopen, hall⟩)
    · exact absurd hq hopens.not_closing
    · exact ⟨hopen, hall r h⟩
  · rintro ⟨hopen, hlt⟩
    refine .inr ⟨hopen, fun r' h' => Nat.lt_of_lt_of_le hlt (h'.2.2 r h.1 h.2.1)⟩

theorem isOpen_succ_of_not_closes (h : ∀ r, ¬ Closes items q r) :
    IsOpen items (q + 1) p ↔ (p = q ∧ ∃ name span, Opens items q name span) ∨ IsOpen items q p :=
  or_congr_right (and_iff_left fun r hr => absurd hr (h r))

theorem Closes.lt (h : Closes items q p) : p < q := h.1.lt

theorem Closes.start_unique (h : Closes items q p) (h' : Closes items q r) : p = r :=
  Nat.le_antisymm (h'.2.2 p h.1 h.2.1) (h.2.2 r h'.1 h'.2.1)

theorem Closes.not_isOpen (h : Closes items q p) (hr : q < r) : ¬ IsOpen items r p := fun hopen =>
  Nat.lt_irrefl p ((isOpen_succ_of_closes h).mp (hopen.earlier (Nat.lt_succ_of_lt h.lt) hr)).2

theorem Closes.end_unique (h : Closes items q p) (h' : Closes items r p) : q = r := by
  rcases Nat.lt_trichotomy q r with hlt | rfl | hlt
  · exact absurd h'.1 (h.not_isOpen hlt)
  · rfl
  · exact absurd h.1 (h'.not_isOpen hlt)

theorem Closes.closing (h : Closes items q p) :
    ∃ name span, items[q]? = some (.closing name span) := by
  obtain ⟨name, span, -, -, hq, -⟩ := h.2.1
  exact ⟨name, span, hq⟩

theorem not_closes_of_not_closing (hq : ∀ name span, items[q]? ≠ some (.closing name span))
    (r : Nat) : ¬ Closes items q r := by
  intro hr
  obtain ⟨name, span, hclosing⟩ := hr.closing
  exact hq name span hclosing

theorem Opens.not_closes {name : String} {span : Span} (h : Opens items p name span) (r : Nat) :
    ¬ Closes items p r :=
  not_closes_of_not_closing (fun _ _ => h.not_closing) r

/-- At the item at `q` it shows that the tag at `p` has no other one: no element is open for an end
tag to close, or an element around that of a start tag is closed. -/
def LoneAt (items : List Item) (q p : Nat) : Prop :=
  (p = q ∧ (∃ name span, items[q]? = some (.closing name span)) ∧ ∀ r, ¬ Closes items q r) ∨
    ∃ r, Closes items q r ∧ IsOpen items q p ∧ r < p

/-- With an end tag those tags show to be alone whose elements are open inside of the one that it
closes. -/
theorem loneAt_iff_of_closes (h : Closes items q r) :
    LoneAt items q p ↔ IsOpen items q p ∧ r < p := by
  constructor
  · rintro (⟨-, -, hno⟩ | ⟨c, hc, hopen, hlt⟩)
    · exact absurd h (hno r)
    · exact ⟨hopen, hc.start_unique h ▸ hlt⟩
  · exact fun ⟨hopen, hlt⟩ => .inr ⟨r, h, hopen, hlt⟩

theorem LoneAt.not_isOpen (h : LoneAt items q p) (hr : q < r) : ¬ IsOpen items r p := by
  intro hopen
  obtain ⟨_, _, hopens⟩ := hopen.opens
  rcases h with ⟨rfl, ⟨_, _, hclosing⟩, -⟩ | ⟨c, hc, hbefore, hlt⟩
  · exact absurd hclosing hopens.not_closing
  · have hafter := hopen.earlier (Nat.lt_succ_of_lt hbefore.lt) hr
    exact Nat.lt_asymm hlt ((isOpen_succ_of_closes hc).mp hafter).2

theorem LoneAt.not_later (h : LoneAt items q p) (hr : q < r) : ¬ LoneAt items r p := by
  rintro (⟨rfl, ⟨_, _, hclosing⟩, -⟩ | ⟨c, -, hopen, -⟩)
  · rcases h with ⟨rfl, -, -⟩ | ⟨c, -, hopen, -⟩
    · exact Nat.lt_irrefl _ hr
    · obtain ⟨_, _, hopens⟩ := hopen.opens
      exact hopens.not_closing hclosing
  · exact h.not_isOpen hr hopen

theorem isOpen_or_loneAt {name : String} {span : Span} (h : Opens items p name span)
    (hno : ∀ r, ¬ Closes items r p) (hp : p < q) :
    IsOpen items q p ∨ ∃ r < q, LoneAt items r p := by
  induction q with
  | zero => omega
  | succ q ih =>
    rcases Nat.lt_or_eq_of_le (Nat.le_of_lt_succ hp) with hlt | rfl
    · rcases ih hlt with hopen | ⟨r, hr, hlone⟩
      · by_cases hcloses : ∃ c, Closes items q c
        · obtain ⟨c, hc⟩ := hcloses
          rcases Nat.lt_trichotomy p c with hin | rfl | hout
          · exact .inl ((isOpen_succ_of_closes hc).mpr ⟨hopen, hin⟩)
          · exact absurd hc (hno q)
          · exact .inr ⟨q, Nat.lt_succ_self q, .inr ⟨c, hc, hopen, hout⟩⟩
        · exact .inl ((isOpen_succ_of_not_closes (not_exists.mp hcloses)).mpr (.inr hopen))
      · exact .inr ⟨r, Nat.lt_succ_of_lt hr, hlone⟩
    · exact .inl (.inl ⟨rfl, name, span, h⟩)

def IsTag (items : List Item) (p : Nat) : Prop :=
  (∃ name span, Opens items p name span) ∨ ∃ name span, items[p]? = some (.closing name span)

structure Lone (items : List Item) (p : Nat) : Prop where
  tag : IsTag items p
  unpaired : ∀ r, ¬ Closes items r p ∧ ¬ Closes items p r

/-- The tags that show to be alone, at some item or at the end, are those of no pair. -/
theorem lone_iff :
    Lone items p ↔ IsOpen items items.length p ∨ ∃ q < items.length, LoneAt items q p := by
  have hbound : ∀ {p : Nat} {i : Item}, items[p]? = some i → p < items.length := fun h =>
    (List.getElem?_eq_some_iff.mp h).1
  constructor
  · rintro ⟨⟨name, span, hopens⟩ | ⟨name, span, hclosing⟩, hno⟩
    · obtain ⟨attributes, hp, -⟩ := id hopens
      exact isOpen_or_loneAt hopens (fun r => (hno r).1) (hbound hp)
    · exact .inr ⟨p, hbound hclosing, .inl ⟨rfl, ⟨name, span, hclosing⟩, fun r => (hno r).2⟩⟩
  · rintro (hopen | ⟨q, hq, hlone⟩)
    · obtain ⟨name, span, hopens⟩ := hopen.opens
      refine ⟨.inl ⟨name, span, hopens⟩, fun r => ⟨fun hr => ?_, hopens.not_closes r⟩⟩
      obtain ⟨_, _, hclosing⟩ := hr.closing
      exact hr.not_isOpen (hbound hclosing) hopen
    · rcases id hlone with ⟨rfl, hclosing, hno⟩ | ⟨c, hc, hopen, hlt⟩
      · refine ⟨.inr hclosing, fun r => ⟨fun hr => ?_, hno r⟩⟩
        obtain ⟨_, _, hopens⟩ := hr.1.opens
        obtain ⟨_, _, hclosing⟩ := hclosing
        exact hopens.not_closing hclosing
      · obtain ⟨name, span, hopens⟩ := hopen.opens
        refine ⟨.inl ⟨name, span, hopens⟩, fun r => ⟨fun hr => ?_, hopens.not_closes r⟩⟩
        rcases Nat.lt_trichotomy r q with hbefore | rfl | hafter
        · exact hr.not_isOpen hbefore hopen
        · exact Nat.lt_irrefl p (hc.start_unique hr ▸ hlt)
        · exact hlone.not_isOpen hafter hr.1

end Tags

namespace Tags

variable {items : List Item} {p q : Nat}

inductive Reports (items : List Item) (p : Nat) : Diagnostic → Prop where
  | unclosed {name : String} {span : Span} (opens : Opens items p name span) :
      Reports items p (TreeBuilder.unclosed name span)
  | unmatched {name : String} {span : Span} (closing : items[p]? = some (.closing name span)) :
      Reports items p (TreeBuilder.unmatched name span)

/-- The errors become more by those about these tags, in the order of the source. -/
def Told (items : List Item) (lone : Nat → Prop) (before after : List Diagnostic) : Prop :=
  ∃ ps ds, after = before ++ ds ∧ ps.Pairwise (· < ·) ∧ (∀ p, p ∈ ps ↔ lone p) ∧
    List.Forall₂ (Reports items) ps ds

structure Stacked (items : List Item) (q : Nat) (b : Builder) (stack : List Nat) : Prop where
  tags : List.Forall₂ (fun (t : String × Span) p => Opens items p t.1 t.2)
    (b.opened.map fun e => (e.name, e.span)) stack
  sorted : stack.Pairwise (· > ·)
  mem : ∀ p, p ∈ stack ↔ IsOpen items q p

section

variable {α β : Type} {R : α → β → Prop} {as : List α} {bs : List β}

theorem exists_in_step (h : List.Forall₂ R as bs) {b : β} (hb : b ∈ bs) : ∃ a ∈ as, R a b := by
  induction h with
  | nil => cases hb
  | @cons a b' as bs hab hrest ih =>
    rcases List.mem_cons.mp hb with rfl | hb
    · exact ⟨a, List.mem_cons_self, hab⟩
    · obtain ⟨a', ha', hab'⟩ := ih hb
      exact ⟨a', List.mem_cons_of_mem a ha', hab'⟩

theorem exists_split_at {f : α → Bool} (h : List.Forall₂ R as bs) {i : Nat}
    (hi : as.findIdx? f = some i) :
    ∃ a inner b outer, bs = inner ++ b :: outer ∧ f a = true ∧ R a b ∧
      List.Forall₂ (fun a b => R a b ∧ f a = false) (as.take i) inner ∧
      List.Forall₂ R (as.drop (i + 1)) outer := by
  induction h generalizing i with
  | nil => cases hi
  | @cons a b as bs hab hrest ih =>
    rw [List.findIdx?_cons] at hi
    split_ifs at hi with hf
    · cases hi
      exact ⟨a, [], b, bs, rfl, hf, hab, .nil, hrest⟩
    · obtain ⟨j, hj, rfl⟩ := Option.map_eq_some_iff.mp hi
      obtain ⟨a', inner, b', outer, rfl, ha', hab', hinner, houter⟩ := ih hj
      exact ⟨a', b :: inner, b', outer, rfl, ha', hab',
        .cons ⟨hab, by simpa using hf⟩ hinner, houter⟩

end

theorem mem_split_iff {inner outer : List Nat} {c p : Nat}
    (h : (inner ++ c :: outer).Pairwise (· > ·)) :
    (p ∈ inner ↔ p ∈ inner ++ c :: outer ∧ c < p) ∧
      (p ∈ outer ↔ p ∈ inner ++ c :: outer ∧ p < c) := by
  rw [List.pairwise_append, List.pairwise_cons] at h
  obtain ⟨-, ⟨hbelow, -⟩, habove⟩ := h
  refine ⟨⟨fun hp => ⟨by simp [hp], habove p hp c List.mem_cons_self⟩, ?_⟩,
    ⟨fun hp => ⟨by simp [hp], hbelow p hp⟩, ?_⟩⟩
  · rintro ⟨hp, hlt⟩
    rcases List.mem_append.mp hp with hp | hp
    · exact hp
    · rcases List.mem_cons.mp hp with rfl | hp
      · exact absurd hlt (Nat.lt_irrefl p)
      · exact absurd hlt (Nat.lt_asymm (hbelow p hp))
  · rintro ⟨hp, hlt⟩
    rcases List.mem_append.mp hp with hp | hp
    · exact absurd hlt (Nat.lt_asymm (habove p hp c List.mem_cons_self))
    · rcases List.mem_cons.mp hp with rfl | hp
      · exact absurd hlt (Nat.lt_irrefl p)
      · exact hp

namespace Stacked

variable {b b' : Builder} {stack : List Nat} {i : Item}

theorem told_of_not_closing (hq : ∀ name span, items[q]? ≠ some (.closing name span))
    (ds : List Diagnostic) : Told items (LoneAt items q) ds ds := by
  refine ⟨[], [], (List.append_nil ds).symm, .nil, fun p => iff_of_false List.not_mem_nil ?_, .nil⟩
  rintro (⟨-, ⟨name, span, hclosing⟩, -⟩ | ⟨r, hr, -⟩)
  · exact hq name span hclosing
  · exact not_closes_of_not_closing hq r hr

theorem same (h : Stacked items q b stack)
    (htags : b'.opened.map (fun e => (e.name, e.span)) = b.opened.map fun e => (e.name, e.span))
    (hopens : ∀ name span, ¬ Opens items q name span) (hcloses : ∀ r, ¬ Closes items q r) :
    Stacked items (q + 1) b' stack := by
  refine ⟨htags ▸ h.tags, h.sorted, fun p => ?_⟩
  rw [h.mem, isOpen_succ_of_not_closes hcloses]
  exact (or_iff_right fun hq => (hq.2.elim fun name => (Exists.elim · (hopens name)))).symm

/-- An item that is no tag of an element leaves the open elements, and nothing is reported with it. -/
theorem leaf (h : Stacked items q b stack) (hq : items[q]? = some i)
    (htags : b'.opened.map (fun e => (e.name, e.span)) = b.opened.map fun e => (e.name, e.span))
    (herrors : b'.errors = b.errors) (hopens : ∀ name span, ¬ Opens items q name span)
    (hi : ∀ name span, i ≠ .closing name span) :
    ∃ stack', Stacked items (q + 1) b' stack' ∧ Told items (LoneAt items q) b.errors b'.errors := by
  have hclosing : ∀ name span, items[q]? ≠ some (.closing name span) := fun name span he =>
    hi name span (Option.some.inj (hq.symm.trans he))
  refine ⟨stack, h.same htags hopens (not_closes_of_not_closing hclosing), ?_⟩
  rw [herrors]
  exact told_of_not_closing hclosing b.errors

theorem opening {name : String} {attributes : Table String} {span : Span}
    (h : Stacked items q b stack) (hq : items[q]? = some (.opening name attributes false span))
    (hvoid : isVoid name = false) :
    Stacked items (q + 1) { b with opened := ⟨name, attributes, span, []⟩ :: b.opened }
      (q :: stack) := by
  have hopens : Opens items q name span := ⟨attributes, hq, hvoid⟩
  refine ⟨.cons hopens h.tags, List.pairwise_cons.mpr ⟨fun p hp => ((h.mem p).mp hp).lt, h.sorted⟩,
    fun p => ?_⟩
  rw [List.mem_cons, h.mem, isOpen_succ_of_not_closes hopens.not_closes]
  exact or_congr_left (and_iff_left ⟨name, span, hopens⟩).symm

/-- The builder looks for the name of the end tag among the elements that it could close. -/
theorem matches_iff {name name' : String} {span span' : Span} {r : Nat}
    (hq : items[q]? = some (.closing name span)) (hr : Opens items r name' span') :
    Matches items q r ↔ sameName name' name = true := by
  constructor
  · rintro ⟨_, _, _, _, hclosing, hopens, hsame⟩
    rw [hq] at hclosing
    cases hclosing
    obtain ⟨rfl, -⟩ := hr.unique hopens
    exact hsame
  · exact fun hsame => ⟨name, span, name', span', hq, hr, hsame⟩

theorem unmatched {name : String} {span : Span} (h : Stacked items q b stack)
    (hq : items[q]? = some (.closing name span))
    (hnone : (b.opened.findIdx? fun e => sameName e.name name) = none) :
    Stacked items (q + 1) (b.report [TreeBuilder.unmatched name span]) stack ∧
      Told items (LoneAt items q) b.errors (b.report [TreeBuilder.unmatched name span]).errors := by
  have hcloses : ∀ r, ¬ Closes items q r := by
    rintro r ⟨hopen, hmatches, -⟩
    obtain ⟨t, ht, hr⟩ := exists_in_step h.tags ((h.mem r).mpr hopen)
    obtain ⟨e, he, rfl⟩ := List.mem_map.mp ht
    have hno := List.findIdx?_eq_none_iff.mp hnone e he
    rw [(matches_iff hq hr).mp hmatches] at hno
    cases hno
  refine ⟨h.same rfl (fun _ _ hopens => hopens.not_closing hq) hcloses, [q], _, rfl,
    List.pairwise_singleton _ _, fun p => ?_, .cons (.unmatched hq) .nil⟩
  rw [List.mem_singleton, LoneAt]
  constructor
  · exact fun hp => .inl ⟨hp, ⟨name, span, hq⟩, hcloses⟩
  · rintro (⟨hp, -⟩ | ⟨r, hr, -⟩)
    · exact hp
    · exact absurd hr (hcloses r)

/-- An end tag closes the innermost open element of its name. Those inside have no end tag. -/
theorem matched {name : String} {span : Span} {n : Nat} (h : Stacked items q b stack)
    (hq : items[q]? = some (.closing name span))
    (hn : (b.opened.findIdx? fun e => sameName e.name name) = some n) :
    ∃ stack', Stacked items (q + 1)
        ((b.report ((b.opened.take n).reverse.map OpenElement.unclosed)).close (n + 1)) stack' ∧
      Told items (LoneAt items q) b.errors
        ((b.report ((b.opened.take n).reverse.map OpenElement.unclosed)).close (n + 1)).errors := by
  have htags := h.tags
  rw [List.forall₂_map_left_iff] at htags
  obtain ⟨e, inner, c, outer, rfl, he, hc, hinner, houter⟩ := exists_split_at htags hn
  have hsorted := h.sorted
  rw [List.pairwise_append, List.pairwise_cons] at hsorted
  obtain ⟨hinnerSorted, ⟨-, houterSorted⟩, -⟩ := hsorted
  have hcopen : IsOpen items q c := (h.mem c).mp (by simp)
  have hcloses : Closes items q c := by
    refine ⟨hcopen, (matches_iff hq hc).mpr he, fun r hopen hmatches => ?_⟩
    refine Nat.le_of_not_lt fun hlt => ?_
    have hr : r ∈ inner := (mem_split_iff h.sorted).1.mpr ⟨(h.mem r).mpr hopen, hlt⟩
    obtain ⟨e', -, hr', hno⟩ := exists_in_step hinner hr
    rw [(matches_iff hq hr').mp hmatches] at hno
    cases hno
  refine ⟨outer, ⟨?_, houterSorted, fun p => ?_⟩, inner.reverse,
    (b.opened.take n).reverse.map OpenElement.unclosed, ?_, ?_, fun p => ?_, ?_⟩
  · rw [Builder.opened_map_close fun _ _ => rfl, List.forall₂_map_left_iff]
    exact houter
  · rw [isOpen_succ_of_closes hcloses, ← h.mem, (mem_split_iff h.sorted).2]
  · rw [Builder.errors_close]
    rfl
  · rw [List.pairwise_reverse]
    exact hinnerSorted
  · rw [List.mem_reverse, (mem_split_iff h.sorted).1, h.mem, loneAt_iff_of_closes hcloses]
  · rw [List.forall₂_map_right_iff, List.forall₂_reverse_iff]
    exact (hinner.imp fun _ _ h => Reports.unclosed h.1).flip

/-- The item changes the open elements as the tags say, and lone tags are reported with it. -/
theorem push (h : Stacked items q b stack) (hq : items[q]? = some i) (preserve : Bool) :
    ∃ stack', Stacked items (q + 1) (b.push preserve i) stack' ∧
      Told items (LoneAt items q) b.errors (b.push preserve i).errors := by
  cases i with
  | opening name attributes selfClosing span =>
    unfold Builder.push
    dsimp only
    split_ifs with hleaf
    · refine h.leaf hq (Builder.opened_map_withSiblings (fun _ _ => rfl) b _)
        (Builder.errors_withSiblings b _) ?_ nofun
      intro _ _ hopens
      obtain ⟨_, hitem, hvoid⟩ := hopens.item_eq hq
      cases hitem
      rw [Bool.false_or, hvoid] at hleaf
      cases hleaf
    · rw [Bool.not_eq_true, Bool.or_eq_false_iff] at hleaf
      obtain ⟨rfl, hvoid⟩ := hleaf
      refine ⟨q :: stack, h.opening hq hvoid, told_of_not_closing (fun _ _ hclosing => ?_) b.errors⟩
      rw [hq] at hclosing
      cases hclosing
  | closing name span =>
    unfold Builder.push
    dsimp only
    split
    · rename_i hnone
      exact ⟨stack, h.unmatched hq hnone⟩
    · rename_i n hn
      exact h.matched hq hn
  | text value =>
    have hopens : ∀ name span, ¬ Opens items q name span := by
      intro _ _ hopens
      obtain ⟨_, hitem, -⟩ := hopens.item_eq hq
      cases hitem
    unfold Builder.push
    dsimp only
    split_ifs
    · exact h.leaf hq rfl rfl hopens nofun
    · exact h.leaf hq rfl rfl hopens nofun
    · exact h.leaf hq (Builder.opened_map_addText (fun _ _ => rfl) b value) (b.errors_addText value)
        hopens nofun
  | comment value =>
    refine h.leaf hq (Builder.opened_map_withSiblings (fun _ _ => rfl) b _)
      (Builder.errors_withSiblings b _) ?_ nofun
    intro _ _ hopens
    obtain ⟨_, hitem, -⟩ := hopens.item_eq hq
    cases hitem

theorem finish (h : Stacked items q b stack) :
    Told items (IsOpen items q) b.errors b.finish.errors := by
  refine ⟨stack.reverse, b.opened.reverse.map OpenElement.unclosed, ?_, ?_, fun p => ?_, ?_⟩
  · rw [Builder.finish, Builder.errors_close]
    rfl
  · rw [List.pairwise_reverse]
    exact h.sorted
  · rw [List.mem_reverse, h.mem]
  · have htags := h.tags
    rw [List.forall₂_map_left_iff] at htags
    rw [List.forall₂_map_right_iff, List.forall₂_reverse_iff]
    exact (htags.imp fun _ _ h => Reports.unclosed h).flip

end Stacked

def builderAt (preserve : Bool) (items : List Item) (q : Nat) : Builder :=
  (items.take q).foldl (Builder.push preserve) .start

theorem builderAt_succ {preserve : Bool} {i : Item} (hq : items[q]? = some i) :
    builderAt preserve items (q + 1) = (builderAt preserve items q).push preserve i := by
  rw [builderAt, List.take_add_one, hq, List.foldl_append]
  rfl

theorem run_eq_finish (preserve : Bool) (items : List Item) :
    Builder.run preserve items = (builderAt preserve items items.length).finish := by
  rw [builderAt, List.take_length, Builder.run]

theorem exists_stacked (preserve : Bool) (hq : q ≤ items.length) :
    ∃ stack told, Stacked items q (builderAt preserve items q) stack ∧ told.Nodup ∧
      (∀ p, p ∈ told ↔ ∃ r < q, LoneAt items r p) ∧
      List.Forall₂ (Reports items) told (builderAt preserve items q).errors := by
  induction q with
  | zero =>
    refine ⟨[], [], ⟨.nil, .nil, fun p => ?_⟩, .nil, by simp, .nil⟩
    exact iff_of_false List.not_mem_nil id
  | succ q ih =>
    obtain ⟨stack, told, hstacked, hnodup, hmem, hreports⟩ := ih (Nat.le_of_succ_le hq)
    have hi := List.getElem?_eq_getElem (Nat.lt_of_succ_le hq)
    obtain ⟨stack', hstacked', ps, ds, herrors, hsorted, hps, hds⟩ :=
      hstacked.push hi preserve
    rw [builderAt_succ hi]
    refine ⟨stack', told ++ ps, hstacked', ?_, fun p => ?_, ?_⟩
    · refine List.nodup_append.mpr ⟨hnodup, hsorted.imp Nat.ne_of_lt, ?_⟩
      rintro p hp r hr rfl
      obtain ⟨r, hlt, hlone⟩ := (hmem p).mp hp
      exact hlone.not_later hlt ((hps p).mp hr)
    · rw [List.mem_append, hmem, hps]
      constructor
      · rintro (⟨r, hr, hlone⟩ | hlone)
        · exact ⟨r, Nat.lt_succ_of_lt hr, hlone⟩
        · exact ⟨q, Nat.lt_succ_self q, hlone⟩
      · rintro ⟨r, hr, hlone⟩
        rcases Nat.lt_or_eq_of_le (Nat.le_of_lt_succ hr) with hlt | rfl
        · exact .inl ⟨r, hlt, hlone⟩
        · exact .inr hlone
    · rw [herrors]
      exact List.rel_append hreports hds

/-- The builder reports the tags of no pair, and each of them once. -/
theorem exists_told (preserve : Bool) (items : List Item) : ∃ told : List Nat, told.Nodup ∧
    (∀ p, p ∈ told ↔ Lone items p) ∧
    List.Forall₂ (Reports items) told (Builder.run preserve items).errors := by
  obtain ⟨stack, told, hstacked, hnodup, hmem, hreports⟩ :=
    exists_stacked preserve (Nat.le_refl items.length)
  obtain ⟨ps, ds, herrors, hsorted, hps, hds⟩ := hstacked.finish
  refine ⟨told ++ ps, List.nodup_append.mpr ⟨hnodup, hsorted.imp Nat.ne_of_lt, ?_⟩, fun p => ?_, ?_⟩
  · rintro p hp r hr rfl
    obtain ⟨r, hlt, hlone⟩ := (hmem p).mp hp
    exact hlone.not_isOpen hlt ((hps p).mp hr)
  · rw [lone_iff, List.mem_append, hmem, hps, or_comm]
  · rw [run_eq_finish, herrors]
    exact List.rel_append hreports hds

theorem Reports.exists_item {d : Diagnostic} (h : Reports items p d) :
    ∃ i, items[p]? = some i ∧ i.tagSpan? = some d.span := by
  cases h with
  | unclosed opens =>
    obtain ⟨attributes, hp, -⟩ := opens
    exact ⟨_, hp, rfl⟩
  | @unmatched name span closing =>
    refine ⟨_, closing, ?_⟩
    unfold TreeBuilder.unmatched
    split <;> rfl

theorem Reports.unique {d d' : Diagnostic} (h : Reports items p d) (h' : Reports items p d') :
    d = d' := by
  cases h with
  | unclosed opens =>
    cases h' with
    | unclosed opens' =>
      obtain ⟨rfl, rfl⟩ := opens.unique opens'
      rfl
    | unmatched closing => exact absurd closing opens.not_closing
  | unmatched closing =>
    cases h' with
    | unclosed opens => exact absurd closing opens.not_closing
    | unmatched closing' =>
      rw [closing] at closing'
      cases closing'
      rfl

theorem Reports.laments {d : Diagnostic} (h : Reports items p d) :
    lamentsTag d.message = true := by
  have hmessage : ∀ {span : Span} {start name : String}, 13 ≤ start.toList.length →
      lamentsTag start = true →
      lamentsTag (Diagnostic.error span (start ++ name ++ "\"")).message = true := by
    intro span start name hlength hstart
    rw [String.append_assoc]
    exact (lamentsTag_append hlength).trans hstart
  cases h with
  | unclosed => exact hmessage (by decide +kernel) (by decide +kernel)
  | unmatched =>
    unfold TreeBuilder.unmatched
    split
    · exact hmessage (by decide +kernel) (by decide +kernel)
    · exact hmessage (by decide +kernel) (by decide +kernel)

theorem count_in_step {told : List Nat} {ds : List Diagnostic} {d : Diagnostic}
    (h : List.Forall₂ (Reports items) told ds)
    (hd : ∀ r d', Reports items r d' → (d' = d ↔ r = p)) : ds.count d = told.count p := by
  induction h with
  | nil => rfl
  | cons hreports _ ih => simp only [List.count_cons, ih, beq_iff_eq, hd _ _ hreports]

/-- A tag is reported once if it is of no pair, and never if it is of one. -/
theorem count_errors_parse {text url : String} {d : Diagnostic}
    (h : Reports (Item.ofTokens (lex text url).tokens) p d) (preserve : Bool) :
    (Lone (Item.ofTokens (lex text url).tokens) p →
      (parse text url preserve).errors.count d = 1) ∧
    (¬ Lone (Item.ofTokens (lex text url).tokens) p →
      (parse text url preserve).errors.count d = 0) := by
  obtain ⟨told, hnodup, hmem, hreports⟩ :=
    exists_told preserve (Item.ofTokens (lex text url).tokens)
  have hlexed : (lex text url).errors.count d = 0 := by
    refine List.count_eq_zero.mpr fun hd => ?_
    have hno := lamentsTag_lexFrom ⟨.start, unifyLineEnds text.toList⟩ d hd
    rw [h.laments] at hno
    cases hno
  have hbuilt : (parse text url preserve).errors.count d = told.count p := by
    rw [errors_parse, List.count_append, hlexed, Nat.zero_add]
    refine count_in_step hreports fun r d' hr => ⟨?_, ?_⟩
    · rintro rfl
      obtain ⟨i, hi, hspan⟩ := h.exists_item
      obtain ⟨j, hj, hspan'⟩ := hr.exists_item
      exact tagSpan?_injective text url hj hi hspan' hspan
    · rintro rfl
      exact hr.unique h
  rw [hbuilt]
  exact ⟨fun hlone => List.count_eq_one_of_mem hnodup ((hmem p).mpr hlone),
    fun hpaired => List.count_eq_zero.mpr fun hp => hpaired ((hmem p).mp hp)⟩

/-- The errors account for all tags of the items. -/
structure Accounted (preserve : Bool) (items : List Item) (errors : List Diagnostic) : Prop where
  starts : ∀ p name span, Opens items p name span →
    (∃! q, Closes items q p) ∧ errors.count (TreeBuilder.unclosed name span) = 0 ∨
      (∀ q, ¬ Closes items q p) ∧ errors.count (TreeBuilder.unclosed name span) = 1
  ends : ∀ q name span, items[q]? = some (.closing name span) →
    (∃! p, Closes items q p) ∧ errors.count (TreeBuilder.unmatched name span) = 0 ∨
      (∀ p, ¬ Closes items q p) ∧ errors.count (TreeBuilder.unmatched name span) = 1
  opened : ∀ q ≤ items.length, ∃ stack, Stacked items q (builderAt preserve items q) stack
  inside : ∀ q p, Closes items q p →
    Told items (fun r => IsOpen items q r ∧ p < r) (builderAt preserve items q).errors
      (builderAt preserve items (q + 1)).errors
  balanced : (Builder.run preserve items).errors = [] ↔
    (∀ p name span, Opens items p name span → ∃! q, Closes items q p) ∧
      ∀ q name span, items[q]? = some (.closing name span) → ∃! p, Closes items q p

theorem existsUnique_end_iff {name : String} {span : Span} (h : Opens items p name span) :
    (∃! q, Closes items q p) ↔ ¬ Lone items p := by
  constructor
  · rintro ⟨q, hq, -⟩ hlone
    exact (hlone.unpaired q).1 hq
  · intro hpaired
    obtain ⟨q, hq⟩ : ∃ q, Closes items q p := by
      by_contra hno
      exact hpaired ⟨.inl ⟨name, span, h⟩, fun r => ⟨fun hr => hno ⟨r, hr⟩, h.not_closes r⟩⟩
    exact ⟨q, hq, fun r hr => hr.end_unique hq⟩

theorem existsUnique_start_iff {name : String} {span : Span}
    (h : items[q]? = some (.closing name span)) :
    (∃! p, Closes items q p) ↔ ¬ Lone items q := by
  constructor
  · rintro ⟨p, hp, -⟩ hlone
    exact (hlone.unpaired p).2 hp
  · intro hpaired
    obtain ⟨p, hp⟩ : ∃ p, Closes items q p := by
      by_contra hno
      refine hpaired ⟨.inr ⟨name, span, h⟩, fun r => ⟨fun hr => ?_, fun hr => hno ⟨r, hr⟩⟩⟩
      obtain ⟨_, _, hopens⟩ := hr.1.opens
      exact hopens.not_closing h
    exact ⟨p, hp, fun r hr => hr.start_unique hp⟩

theorem errors_run_eq_nil_iff (preserve : Bool) (items : List Item) :
    (Builder.run preserve items).errors = [] ↔ ∀ p, ¬ Lone items p := by
  obtain ⟨told, -, hmem, hreports⟩ := exists_told preserve items
  constructor
  · intro hnone p hlone
    rw [hnone, List.forall₂_nil_right_iff] at hreports
    rw [← hmem, hreports] at hlone
    exact List.not_mem_nil hlone
  · intro hpaired
    have htold : told = [] := List.eq_nil_iff_forall_not_mem.mpr fun p hp =>
      hpaired p ((hmem p).mp hp)
    rwa [htold, List.forall₂_nil_left_iff] at hreports

theorem accounted_ofTokens (text url : String) (preserve : Bool) :
    Accounted preserve (Item.ofTokens (lex text url).tokens) (parse text url preserve).errors where
  starts p name span h := by
    obtain ⟨hlone, hpaired⟩ := count_errors_parse (.unclosed h) preserve
    by_cases hp : Lone (Item.ofTokens (lex text url).tokens) p
    · exact .inr ⟨fun q => (hp.unpaired q).1, hlone hp⟩
    · exact .inl ⟨(existsUnique_end_iff h).mpr hp, hpaired hp⟩
  ends q name span h := by
    obtain ⟨hlone, hpaired⟩ := count_errors_parse (.unmatched h) preserve
    by_cases hq : Lone (Item.ofTokens (lex text url).tokens) q
    · exact .inr ⟨fun p => (hq.unpaired p).2, hlone hq⟩
    · exact .inl ⟨(existsUnique_start_iff h).mpr hq, hpaired hq⟩
  opened q hq := by
    obtain ⟨stack, -, hstacked, -⟩ := exists_stacked preserve hq
    exact ⟨stack, hstacked⟩
  inside q p h := by
    obtain ⟨name, span, hq⟩ := h.closing
    obtain ⟨stack, -, hstacked, -⟩ :=
      exists_stacked preserve (List.getElem?_eq_some_iff.mp hq).1.le
    obtain ⟨-, -, ps, ds, herrors, hsorted, hps, hds⟩ := hstacked.push hq preserve
    rw [builderAt_succ hq]
    exact ⟨ps, ds, herrors, hsorted, fun r => (hps r).trans (loneAt_iff_of_closes h), hds⟩
  balanced := by
    rw [errors_run_eq_nil_iff]
    constructor
    · exact fun h => ⟨fun p _ _ hp => (existsUnique_end_iff hp).mpr (h p),
        fun q _ _ hq => (existsUnique_start_iff hq).mpr (h q)⟩
    · rintro ⟨hstarts, hends⟩ p hlone
      rcases id hlone.tag with ⟨name, span, hp⟩ | ⟨name, span, hp⟩
      · exact (existsUnique_end_iff hp).mp (hstarts p name span hp) hlone
      · exact (existsUnique_start_iff hp).mp (hends p name span hp) hlone

/-- Whatever the text, each of its tags is of one pair or is reported once. The items have just the tags
of the tokens, and the builder of the document reports what the builder of the trees does. -/
theorem accounted_parse (text url : String) (preserve : Bool) :
    (Item.ofTokens (lex text url).tokens).filterMap Item.tag? = tagTokens (lex text url).tokens ∧
      (TreeBuilder.build preserve (lex text url).tokens).errors =
        (Builder.run preserve (Item.ofTokens (lex text url).tokens)).errors ∧
      Accounted preserve (Item.ofTokens (lex text url).tokens) (parse text url preserve).errors :=
  ⟨filterMap_tag?_ofTokens _, by rw [build_lex, Builder.errors_written],
    accounted_ofTokens text url preserve⟩

end Tags

end LiveMarkup
