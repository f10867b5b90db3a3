import LiveMarkup.Proofs.Instance.Embedding

/-!
# Instances that share a document

Each instance of a document owns a tree, and all else is as it was before the instances. Whatever the
engine does to one of them, or to one of its family, each still owns a tree afterwards.
-/

namespace LiveMarkup

open Document

/-- The document is `d₀` with more trees of the shapes `ss`, and each of these is owned by one of the
instances. -/
structure Owned (d₀ d : Document) (ss : List Shape) (is : List Instance) : Prop where
  grown : Grown d₀ d ss
  roots : ss.map Shape.id = is.map Instance.root
  embedded : ∀ i ∈ is, i.Embedded d

namespace Owned

variable {d₀ d d' : Document} {s : Shape} {ss ss' ts : List Shape} {i i' g : Instance}
  {is is' batch : List Instance} {p : List (String × Nat)} {name : String} {x y : NodeId}

theorem nil (h : d.Tidy) : Owned d d [] [] := ⟨.refl h, rfl, by simp⟩

theorem append (h : Owned d₀ d ss is) (h' : Owned d d' ss' is') :
    Owned d₀ d' (ss ++ ss') (is ++ is') := by
  refine ⟨h.grown.append h'.grown, by rw [List.map_append, List.map_append, h.roots, h'.roots], ?_⟩
  intro i hi
  rcases List.mem_append.mp hi with hi | hi
  · exact (h.embedded i hi).of_links fun c p hlink _ => h'.grown.link hlink
  · exact h'.embedded i hi

theorem perm (h : Owned d₀ d ss is) (hp : is.Perm is') : ∃ ss', Owned d₀ d ss' is' := by
  have hshapes : ∃ ss', ss.Perm ss' ∧ ss'.map Shape.id = is'.map Instance.root := by
    have hroots := h.roots
    clear h
    induction hp generalizing ss with
    | nil => exact ⟨ss, List.Perm.refl _, hroots⟩
    | cons i _ ih =>
      obtain ⟨s, ss, rfl, hs, hss⟩ := List.map_eq_cons_iff.mp hroots
      obtain ⟨ss', hp', hids⟩ := ih hss
      exact ⟨s :: ss', hp'.cons s, by rw [List.map_cons, List.map_cons, hs, hids]⟩
    | swap i j is =>
      obtain ⟨s, ss, rfl, hs, hss⟩ := List.map_eq_cons_iff.mp hroots
      obtain ⟨t, ss, rfl, ht, hss⟩ := List.map_eq_cons_iff.mp hss
      exact ⟨t :: s :: ss, List.Perm.swap t s ss, by simp [hs, ht, hss]⟩
    | trans _ _ ih₁ ih₂ =>
      obtain ⟨ss₁, hp₁, hids₁⟩ := ih₁ hroots
      obtain ⟨ss₂, hp₂, hids₂⟩ := ih₂ hids₁
      exact ⟨ss₂, hp₁.trans hp₂, hids₂⟩
  obtain ⟨ss', hss, hids⟩ := hshapes
  exact ⟨ss', h.grown.perm hss, hids, fun i hi => h.embedded i (hp.mem_iff.mpr hi)⟩

theorem root_eq (h : Owned d₀ d (s :: ss) (i :: is)) : s.id = i.root := (List.cons.inj h.roots).1

theorem mem_ids_iff (h : Owned d₀ d (s :: ss) (i :: is)) : x ∈ s.ids ↔ d.Under x i.root := by
  rw [← h.root_eq]
  exact h.grown.head_holds.mem_ids_iff

theorem rooted (h : Owned d₀ d (s :: ss) (i :: is)) (hx : d.Under x i.root) : d.Rooted x :=
  h.grown.head_holds.rooted (h.mem_ids_iff.mpr hx)

theorem exists_shape (h : Owned d₀ d ss is) (hi : i ∈ is) : ∃ s ∈ ss, s.id = i.root :=
  List.mem_map.mp (h.roots ▸ List.mem_map_of_mem hi)

theorem apart (h : Owned d₀ d (s :: ss) (i :: is)) (hx : d.Under x i.root) :
    ∀ k ∈ is, ¬ d.Under x k.root := by
  intro k hk hxk
  have hroots : ss.map Shape.id = is.map Instance.root := (List.cons.inj h.roots).2
  obtain ⟨t, ht, hid⟩ := List.mem_map.mp (hroots ▸ List.mem_map_of_mem hk)
  have hxt : x ∈ t.ids := by
    rw [(h.grown.holds t (List.mem_cons_of_mem _ ht)).mem_ids_iff, hid]
    exact hxk
  exact h.grown.head_disjoint x (h.mem_ids_iff.mpr hx) (List.mem_flatMap.mpr ⟨t, ht, hxt⟩)

theorem parent?_root (h : Owned d₀ d ss is) (hi : i ∈ is) : d.parent? i.root = none := by
  obtain ⟨s, hs, hid⟩ := h.exists_shape hi
  rw [← hid]
  exact (h.grown.holds s hs).parent?_eq

theorem mem_ids_of_own (h : Owned d₀ d (s :: ss) (i :: is)) (hg : i.descend? p = some g)
    (hx : d.Own g.stops x g.root) : x ∈ s.ids :=
  h.mem_ids_iff.mpr (hx.under.trans ((h.embedded i List.mem_cons_self).descend? hg).2)

theorem head (h : Owned d₀ d (s :: ss) (i :: is)) (hroot : i'.root = i.root) (hembedded : i'.Embedded d) :
    Owned d₀ d (s :: ss) (i' :: is) := by
  refine ⟨h.grown, by rw [h.roots, List.map_cons, List.map_cons, hroot], fun k hk => ?_⟩
  rcases List.mem_cons.mp hk with rfl | hk
  · exact hembedded
  · exact h.embedded k (List.mem_cons_of_mem _ hk)

theorem tell {g' : Instance} (h : Owned d₀ d (s :: ss) (i :: is)) (hg : i.descend? p = some g)
    (hroot : g'.root = g.root) (haccessors : g'.accessors = g.accessors) :
    Owned d₀ d (s :: ss) (i.replaceAt g' p :: is) := by
  have hi := h.embedded i List.mem_cons_self
  refine h.head (Instance.root_replaceAt hg hroot)
    (hi.replaceAt (h.rooted .refl) hg hroot ?_ fun _ _ hl _ => hl)
  exact (hi.descend? hg).1.of_eq hroot haccessors

theorem write (h : Owned d₀ d (s :: ss) (i :: is)) (hg : i.descend? p = some g)
    {ls : List BoundLocation} (hget : g.accessors.get? name = some (.bound ls))
    (values : Table Json) :
    Owned d₀ (Instance.writeLocations d name values ls) (s :: ss) (i :: is) := by
  have hgs := ((h.embedded i List.mem_cons_self).descend? hg).1
  have hlinks : ∀ x, (Instance.writeLocations d name values ls).links? x = d.links? x :=
    Instance.links?_writeLocations d ls
  refine ⟨h.grown.relabel (Instance.tidy_writeLocations h.grown.tidy ls) hlinks fun x hx => ?_,
    h.roots, fun k hk => (h.embedded k hk).of_links fun c p hlink _ =>
      (link_congr (hlinks c) (hlinks p)).mpr hlink⟩
  have hnone : ls.filter (·.place.owner = x) = [] := by
    rw [List.filter_eq_nil_iff]
    intro r hr
    rw [decide_eq_true_eq]
    rintro rfl
    have hown := hgs.own_of_get? hget _ (List.mem_map_of_mem hr)
    exact hx (List.mem_flatMap.mpr ⟨s, List.mem_cons_self, h.mem_ids_of_own hg hown⟩)
  rw [Instance.node?_writeLocations, hnone]
  cases d.node? x <;> rfl

theorem attach (h : Owned d₀ d (s :: ss) (i :: is)) (hg : i.descend? p = some g)
    {c : Shape} {t : Tree} (hc : d.Copies d' c t) :
    Owned d₀ (d'.append g.root c.id) (s.extendAt g.root [c] :: ss) (i :: is) ∧
      ∀ x, (d'.append g.root c.id).label? x = d'.label? x := by
  have hroot : g.root ∈ s.ids :=
    h.mem_ids_iff.mpr ((h.embedded i List.mem_cons_self).descend? hg).2
  have hgrown : Grown d₀ d' (s :: c :: ss) :=
    (h.grown.append hc.grown).perm ((List.perm_append_singleton c ss).cons s)
  obtain ⟨hattach, hlabels⟩ := hgrown.attach hroot
  refine ⟨⟨hattach, ?_, fun k hk => (h.embedded k hk).of_links fun x q hlink _ => ?_⟩, hlabels⟩
  · rw [List.map_cons, Shape.extendAt, Shape.id_extendBy, ← List.map_cons, h.roots]
  · exact (hgrown.link_attach_iff hroot).mpr (.inl (hc.grown.link hlink))

theorem link_attach (h : Owned d₀ d (s :: ss) (i :: is)) (hg : i.descend? p = some g)
    {c : Shape} {t : Tree} (hc : d.Copies d' c t) (hlink : d.Link x y) :
    (d'.append g.root c.id).Link x y := by
  have hgrown : Grown d₀ d' (s :: c :: ss) :=
    (h.grown.append hc.grown).perm ((List.perm_append_singleton c ss).cons s)
  have hroot := h.mem_ids_iff.mpr ((h.embedded i List.mem_cons_self).descend? hg).2
  exact (hgrown.link_attach_iff hroot).mpr (.inl (hc.grown.link hlink))

/-- What was an instance's own still is, and so is all of a copy that is put below its root. -/
theorem own_attach (h : Owned d₀ d (s :: ss) (i :: is)) (hg : i.descend? p = some g)
    {c : Shape} {t : Tree} (hc : d.Copies d' c t) :
    (∀ x, d.Own g.stops x g.root → (d'.append g.root c.id).Own g.stops x g.root) ∧
      ∀ x ∈ c.ids, (d'.append g.root c.id).Own g.stops x g.root := by
  obtain ⟨hgs, hgi⟩ := (h.embedded i List.mem_cons_self).descend? hg
  have hgrown : Grown d₀ d' (s :: c :: ss) :=
    (h.grown.append hc.grown).perm ((List.perm_append_singleton c ss).cons s)
  have hlink := fun x q => hgrown.link_attach_iff (h.mem_ids_iff.mpr hgi) (x := x) (p := q)
  have hfresh : ∀ x ∈ c.ids, x ∉ g.stops := by
    intro x hx hmem
    obtain ⟨z, hz, rfl⟩ := List.mem_map.mp hmem
    obtain ⟨a, hza, -⟩ := hgs.anchor hz
    obtain ⟨n, hn⟩ := hza.live_child
    rw [hc.fresh _ hx] at hn
    cases hn
  refine ⟨fun x hx => hx.of_links fun y q hyq hstop _ => ⟨h.link_attach hg hc hyq, hstop⟩,
    fun x hx => ?_⟩
  · have hup := hc.holds.mem_ids_iff.mp hx
    induction hup using Relation.ReflTransGen.head_induction_on with
    | refl => exact .single ⟨(hlink _ _).mpr (.inr ⟨rfl, rfl⟩), hfresh _ hx⟩
    | head hyq hup ih =>
      exact .head ⟨(hlink _ _).mpr (.inl hyq), hfresh _ hx⟩ (ih (hc.holds.mem_ids_iff.mpr hup))

theorem children_attach (h : Owned d₀ d (s :: ss) (i :: is)) (hg : i.descend? p = some g)
    {c : Shape} {t : Tree} (hc : d.Copies d' c t) (x : NodeId) :
    (d'.append g.root c.id).children x =
      d'.children x ++ if x = g.root then [c.id] else [] := by
  have hgrown : Grown d₀ d' (s :: c :: ss) :=
    (h.grown.append hc.grown).perm ((List.perm_append_singleton c ss).cons s)
  have hroot := h.mem_ids_iff.mpr ((h.embedded i List.mem_cons_self).descend? hg).2
  obtain ⟨n, -, hn, -⟩ := hgrown.exists_attachable hroot
  rw [children, children, hgrown.node?_attach hroot, Option.map_map]
  by_cases hx : x = g.root
  · subst hx
    simp [hn]
  · cases d'.node? x <;> simp [hx]

theorem part_of_generated (h : Owned d₀ d (s :: ss) (i :: is)) (hg : i.descend? p = some g)
    {z : Instance} (hz : z ∈ g.generated) : z.root ≠ s.id ∧ z.root ∈ s.ids := by
  obtain ⟨hgs, hup⟩ := (h.embedded i List.mem_cons_self).descend? hg
  refine ⟨fun e => ?_, h.mem_ids_iff.mpr ((hgs.under_root hz).trans hup)⟩
  obtain ⟨a, hlink, -⟩ := hgs.anchor hz
  have hnone := h.parent?_root (List.mem_cons_self (a := i) (l := is))
  rw [← h.root_eq, ← e, hlink.1] at hnone
  cases hnone

theorem parts_of_children (h : Owned d₀ d (s :: ss) (i :: is)) (hg : i.descend? p = some g)
    (name : String) : ∀ x ∈ (g.children name).map Instance.root,
      x ≠ s.id ∧ (x ∈ s.ids ∨ d.node? x = none) := by
  intro x hx
  obtain ⟨z, hz, rfl⟩ := List.mem_map.mp hx
  exact (h.part_of_generated hg (Instance.mem_generated_of_mem_children hz)).imp_right .inl

theorem removeRoots_eq_foldl (d : Document) (is : List Instance) :
    Instance.removeRoots d is = (is.map Instance.root).foldl Document.remove d := List.foldl_map.symm

/-- Without the instances that were kept for a property, a node of the tree that is below none of
them has lost them as children and nothing else. -/
theorem node?_removeRoots (h : Owned d₀ d (s :: ss) (i :: is)) (hg : i.descend? p = some g)
    (name : String) (hx : d.Under x i.root) (hstay : ∀ z ∈ g.children name, ¬ d.Under x z.root) :
    (Instance.removeRoots d (g.children name)).node? x = (d.node? x).map fun n =>
      { n with children := n.children.filter fun k =>
          !((g.children name).map Instance.root).contains k } := by
  rw [removeRoots_eq_foldl]
  refine h.grown.node?_removeParts (h.parts_of_children hg name) (h.mem_ids_iff.mpr hx) fun y hy => ?_
  obtain ⟨z, hz, rfl⟩ := List.mem_map.mp hy
  exact hstay z hz

theorem grown_removeRoots (h : Owned d₀ d (s :: ss) (i :: is)) (hg : i.descend? p = some g)
    (name : String) :
    Grown d₀ (Instance.removeRoots d (g.children name))
      ((s.without fun x => ((g.children name).map Instance.root).contains x) :: ss) ∧
    ∀ x, d.Under x i.root →
      (x ∈ (s.without fun x => ((g.children name).map Instance.root).contains x).ids ↔
        ∀ z ∈ g.children name, ¬ d.Under x z.root) := by
  have hparts := h.parts_of_children hg name
  obtain ⟨hcut, -⟩ := h.grown.cutAll hparts
  have hlink := fun x p => h.grown.link_removeAll_iff (c := x) (p := p) hparts
  rw [removeRoots_eq_foldl]
  refine ⟨hcut, fun x hx => ?_⟩
  rw [hcut.head_holds.mem_ids_iff, Shape.id_without, h.root_eq]
  constructor
  · intro hup z hz hxz
    rcases Relation.ReflTransGen.cases_head hup with rfl | ⟨p, hp, -⟩
    · obtain ⟨hgs, hgi⟩ := (h.embedded i List.mem_cons_self).descend? hg
      have hmem := Instance.mem_generated_of_mem_children hz
      exact hgs.not_under_child (h.rooted hgi) hmem (hgi.trans hxz)
    · exact ((hlink x p).mp hp).2 _ (List.mem_map_of_mem hz) hxz
  · intro hstay
    induction hx using Relation.ReflTransGen.head_induction_on with
    | refl => exact .refl
    | head hup _ ih =>
      refine .head ((hlink _ _).mpr ⟨hup, fun y hy => ?_⟩) (ih fun z hz hxz => ?_)
      · obtain ⟨z, hz, rfl⟩ := List.mem_map.mp hy
        exact hstay z hz
      · exact hstay z hz (.head hup hxz)

theorem mem_ids_without (h : Owned d₀ d (s :: ss) (i :: is)) (hg : i.descend? p = some g)
    (name : String) (hx : d.Own g.stops x g.root) :
    x ∈ (s.without fun x => ((g.children name).map Instance.root).contains x).ids := by
  obtain ⟨hgs, hgi⟩ := (h.embedded i List.mem_cons_self).descend? hg
  refine ((h.grown_removeRoots hg name).2 x (hx.under.trans hgi)).mpr fun z hz => ?_
  exact hgs.own_not_under (h.rooted hgi) hx (Instance.mem_generated_of_mem_children hz)

end Owned

def Document.renewed (d : Document) (former batch : List Instance) (a : NodeId) : Document :=
  Instance.appendRoots (Instance.removeRoots d former) a batch

def Shape.renewed (s : Shape) (former : List Instance) (ts : List Shape) (a : NodeId) : Shape :=
  (s.without fun x => (former.map Instance.root).contains x).extendAt a ts

namespace Owned

variable {d₀ d d' : Document} {s : Shape} {ss ts : List Shape} {i g : Instance}
  {is batch : List Instance} {p : List (String × Nat)} {name : String} {a x y : NodeId}
  {ac : Accessor Instance}

section Renewal

variable (name) (h : Owned d₀ d (s :: (ts ++ ss)) (i :: (batch ++ is)))
  (hts : ts.map Shape.id = batch.map Instance.root) (hg : i.descend? p = some g)
  (ha : d.Own g.stops a g.root)
include h hts hg ha

/-- In the document, the subtrees of a batch take the place of those that were kept for a
property. -/
theorem grown_renewed :
    Grown d₀ (d.renewed (g.children name) batch a) (s.renewed (g.children name) ts a :: ss) ∧
      (∀ x p, (d.renewed (g.children name) batch a).Link x p ↔
        (d.Link x p ∧ ∀ z ∈ g.children name, ¬ d.Under x z.root) ∨
          (x ∈ batch.map Instance.root ∧ p = a)) ∧
      ∀ x, x ∈ (s.renewed (g.children name) ts a).ids ∨ x ∉ s.ids →
        (d.renewed (g.children name) batch a).label? x = d.label? x := by
  have hparts := h.parts_of_children hg name
  obtain ⟨-, hcutLabel⟩ := h.grown.cutAll hparts
  have hcutLink := fun x p => h.grown.link_removeAll_iff (c := x) (p := p) hparts
  have hcut := (h.grown_removeRoots hg name).1
  have hanchor := h.mem_ids_without hg name ha
  rw [removeRoots_eq_foldl] at hcut
  obtain ⟨hattach, hattachLabel⟩ := hcut.attachAll hanchor
  have hattachLink := fun x p => hcut.link_attachAll_iff (x := x) (p := p) hanchor
  rw [Document.renewed, Instance.appendRoots_eq hts, removeRoots_eq_foldl]
  refine ⟨hattach, fun x q => ?_, fun x hx => ?_⟩
  · rw [hattachLink, hcutLink, hts, List.forall_mem_map]
  · rw [hattachLabel]
    refine hcutLabel x (hx.elim (fun hx => ?_) .inr)
    rcases Shape.mem_ids_extendAt.mp hx with hx | ⟨-, hx⟩
    · exact .inl hx
    · refine .inr fun hxs => h.grown.head_disjoint x hxs ?_
      rw [List.flatMap_append]
      exact List.mem_append_left _ hx

theorem own_renewed (hchildren : ac.children = batch) (hx : d.Own g.stops x g.root) :
    (d.renewed (g.children name) batch a).Own (g.withAccessor name ac).stops x g.root := by
  obtain ⟨-, hlinks, -⟩ := h.grown_renewed name hts hg ha
  obtain ⟨hgs, hgi⟩ := (h.embedded i List.mem_cons_self).descend? hg
  refine hgs.own_withAccessor (h.rooted hgi)
    (fun y q hlink hnot => (hlinks y q).mpr (.inl ⟨hlink, hnot⟩)) (fun b hb => ?_) hx
  exact h.parent?_root (List.mem_cons_of_mem _ (List.mem_append_left _ (hchildren ▸ hb)))

theorem embedded_beside_renewed {k : Instance} (hk : k ∈ batch ++ is) :
    k.Embedded (d.renewed (g.children name) batch a) := by
  obtain ⟨-, hlinks, -⟩ := h.grown_renewed name hts hg ha
  obtain ⟨hgs, hgi⟩ := (h.embedded i List.mem_cons_self).descend? hg
  refine (h.embedded k (List.mem_cons_of_mem _ hk)).of_links fun x q hlink hup => ?_
  refine (hlinks x q).mpr (.inl ⟨hlink, fun z hz hxz => ?_⟩)
  have hroot := hgs.under_root (Instance.mem_generated_of_mem_children hz)
  exact h.apart ((hxz.trans hroot).trans hgi) k hk (.head hlink hup)

theorem embedded_withAccessor_renewed (hchildren : ac.children = batch)
    (hhandles : ∀ x ∈ ac.handles, d.Own g.stops x g.root)
    (hview : ∀ anchor view cs, ac = .iterating anchor view cs → anchor = a ∧ view.IsCompiled) :
    (g.withAccessor name ac).Embedded (d.renewed (g.children name) batch a) := by
  obtain ⟨-, hlinks, -⟩ := h.grown_renewed name hts hg ha
  obtain ⟨hgs, hgi⟩ := (h.embedded i List.mem_cons_self).descend? hg
  refine hgs.withAccessor (h.rooted hgi)
    (fun x q hlink hnot => (hlinks x q).mpr (.inl ⟨hlink, hnot⟩))
    (fun b hb => ?_) hhandles (fun anchor view cs he => ?_) ?_ fun b hb => ?_
  · exact h.parent?_root (List.mem_cons_of_mem _ (List.mem_append_left _ (hchildren ▸ hb)))
  · obtain ⟨rfl, hcompiled⟩ := hview anchor view cs he
    refine ⟨hcompiled, fun c hc => (hlinks _ _).mpr (.inr ⟨?_, rfl⟩)⟩
    rw [← hchildren, he]
    exact List.mem_map_of_mem hc
  · have hids := Shape.nodup_map_id h.grown.nodup
    rw [h.roots, List.map_cons, List.nodup_cons, List.map_append] at hids
    rw [hchildren]
    exact hids.2.of_append_left
  · exact h.embedded_beside_renewed name hts hg ha (List.mem_append_left _ (hchildren ▸ hb))

theorem renew (hchildren : ac.children = batch)
    (hhandles : ∀ x ∈ ac.handles, d.Own g.stops x g.root)
    (hview : ∀ anchor view cs, ac = .iterating anchor view cs → anchor = a ∧ view.IsCompiled) :
    Owned d₀ (d.renewed (g.children name) batch a) (s.renewed (g.children name) ts a :: ss)
      (i.replaceAt (g.withAccessor name ac) p :: is) := by
  obtain ⟨hgrown, hlinks, -⟩ := h.grown_renewed name hts hg ha
  have hi := h.embedded i List.mem_cons_self
  obtain ⟨hgs, -⟩ := hi.descend? hg
  have hwhole : (i.replaceAt (g.withAccessor name ac) p).Embedded
      (d.renewed (g.children name) batch a) := by
    refine hi.replaceAt (h.rooted .refl) hg rfl
      (h.embedded_withAccessor_renewed name hts hg ha hchildren hhandles hview) fun x q hlink hq => ?_
    refine (hlinks x q).mpr (.inl ⟨hlink, fun z hz hxz => hq ?_⟩)
    have hmem := Instance.mem_generated_of_mem_children hz
    obtain ⟨b, hb, hown⟩ := hgs.anchor hmem
    rcases Relation.ReflTransGen.cases_head hxz with rfl | ⟨w, hw, hup⟩
    · obtain rfl := hb.unique hlink
      exact hown.under
    · obtain rfl := hw.unique hlink
      exact hup.trans (hgs.under_root hmem)
  refine ⟨hgrown, ?_, fun k hk => ?_⟩
  · have hroots := List.cons.inj h.roots
    have hroot : (i.replaceAt (g.withAccessor name ac) p).root = i.root :=
      Instance.root_replaceAt hg rfl
    rw [List.map_append, List.map_append] at hroots
    rw [List.map_cons, List.map_cons, Shape.renewed, Shape.extendAt, Shape.id_extendBy,
      Shape.id_without, hroot, hroots.1,
      (List.append_inj hroots.2 (by simpa using congrArg List.length hts)).2]
  · rcases List.mem_cons.mp hk with rfl | hk
    · exact hwhole
    · exact h.embedded_beside_renewed name hts hg ha (List.mem_append_right _ hk)

end Renewal

theorem discard (h : Owned d₀ d (ts ++ ss) (batch ++ is))
    (hts : ts.map Shape.id = batch.map Instance.root) :
    Owned d₀ (Instance.removeRoots d batch) ss is := by
  have hroots := h.roots
  rw [List.map_append, List.map_append] at hroots
  have hrest := (List.append_inj hroots (by simpa using congrArg List.length hts)).2
  rw [Instance.removeRoots_eq hts]
  refine ⟨h.grown.removeAll, hrest, fun i hi => ?_⟩
  obtain ⟨t, ht, hid⟩ := List.mem_map.mp (hrest ▸ List.mem_map_of_mem hi)
  have hheld := h.grown.holds t (List.mem_append_right _ ht)
  have hkeep : ∀ x, d.Under x i.root →
      (ts.foldl (fun d t => d.remove t.id) d).node? x = d.node? x := fun x hx => by
    refine h.grown.node?_removeAll fun hmem => ?_
    have hnodup := h.grown.nodup
    rw [List.flatMap_append, List.nodup_append] at hnodup
    have hxt : x ∈ t.ids := by
      rw [hheld.mem_ids_iff, hid]
      exact hx
    exact hnodup.2.2 x hmem x (List.mem_flatMap.mpr ⟨t, ht, hxt⟩) rfl
  exact (h.embedded i (List.mem_append_right _ hi)).frame hkeep

end Owned

end LiveMarkup
