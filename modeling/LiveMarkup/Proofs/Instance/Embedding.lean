import LiveMarkup.Proofs.Blueprint.Compiling
import LiveMarkup.Proofs.Document.Lineage
import LiveMarkup.Proofs.Instance.Renaming

/-!
# Instances embedded in a document

An instance is embedded in a document if each of its handles is at a node of its own: below its root,
and below the root of none of the instances that it keeps. These are embedded below its anchors in
turn. What happens to one of the family matters to the others by the links that it takes away.
-/

namespace LiveMarkup

namespace Blueprint

/-- The blueprint is what a template, or a region of one, compiles to. -/
def IsCompiled (v : Blueprint) : Prop := ∃ config text targetClass b log,
  compile config text targetClass = (.ok b, log) ∧ b.Nests v

variable {v : Blueprint} {name : String} {r : Region Blueprint}

theorem IsCompiled.region (h : v.IsCompiled) (hr : (name, r) ∈ v.regions.entries) :
    r.view.IsCompiled := by
  obtain ⟨config, text, targetClass, b, log, hcompile, hnests⟩ := h
  exact ⟨config, text, targetClass, b, log, hcompile, hnests.inside hr⟩

theorem IsCompiled.exists_isView (h : v.IsCompiled) : ∃ ctx l ps, IsView ctx l ps v := by
  obtain ⟨config, text, targetClass, b, log, hcompile, hnests⟩ := h
  obtain ⟨l, ps, hb⟩ := LiveMarkup.exists_isView hcompile
  obtain ⟨l, ps, hv⟩ := hb.nested hnests
  exact ⟨_, l, ps, hv⟩

end Blueprint

namespace Document

/-- No step of the way from `x` up to `r` starts at one of `stops`. -/
def Own (d : Document) (stops : List NodeId) : NodeId → NodeId → Prop :=
  Relation.ReflTransGen fun c p => d.Link c p ∧ c ∉ stops

variable {d d' : Document} {stops stops' : List NodeId} {x z r : NodeId}

theorem Own.under (h : d.Own stops x r) : d.Under x r :=
  Relation.ReflTransGen.mono (fun _ _ hlink => hlink.1) _ _ h

theorem Own.of_links (h : d.Own stops x r)
    (keep : ∀ c p, d.Link c p → c ∉ stops → d.Own stops p r → d'.Link c p ∧ c ∉ stops') :
    d'.Own stops' x r := by
  induction h using Relation.ReflTransGen.head_induction_on with
  | refl => exact .refl
  | head hlink hup ih => exact .head (keep _ _ hlink.1 hlink.2 hup) ih

theorem Under.grown {ss : List Shape} (h : d.Under x r) (hg : Grown d d' ss) : d'.Under x r :=
  h.of_links fun _ _ hlink _ => hg.link hlink

theorem Own.grown {ss : List Shape} (h : d.Own stops x r) (hg : Grown d d' ss) : d'.Own stops x r :=
  h.of_links fun _ _ hlink hstop _ => ⟨hg.link hlink, hstop⟩

/-- The way up would lead through `z`. -/
theorem Own.not_under (h : d.Own stops x r) (hz : z ∈ stops) (hr : ¬ d.Under r z) :
    ¬ d.Under x z := by
  induction h using Relation.ReflTransGen.head_induction_on with
  | refl => exact hr
  | @head x y hlink _ ih =>
    intro hup
    rcases Relation.ReflTransGen.cases_head hup with rfl | ⟨q, hq, hup⟩
    · exact hlink.2 hz
    · obtain rfl := hq.unique hlink.1
      exact ih hup

end Document

namespace Instance

open Document

/-- The roots of the instances that are kept. -/
def stops (i : Instance) : List NodeId := i.generated.map root

theorem stops_congr {i i' : Instance} (h : i'.accessors = i.accessors) : i'.stops = i.stops := by
  rw [stops, stops, generated, generated, h]

/-- The instance and all of its family are embedded in the document. -/
inductive Embedded (d : Document) : Instance → Prop where
  | mk {i : Instance} (names : i.accessors.names.Nodup)
      (own : ∀ e ∈ i.accessors.entries, ∀ x ∈ e.2.handles, d.Own i.stops x i.root)
      (placed : ∀ n a view cs, (n, .iterating a view cs) ∈ i.accessors.entries →
        view.IsCompiled ∧ ∀ c ∈ cs, d.Link c.root a)
      (distinct : i.stops.Nodup)
      (kept : ∀ c ∈ i.generated, Embedded d c) : Embedded d i

variable {d d' : Document} {i i' g g' c c' : Instance} {name : String} {x : NodeId}
  {p : List (String × Nat)}

namespace Embedded

theorem names (h : i.Embedded d) : i.accessors.names.Nodup := by
  cases h
  assumption

theorem own (h : i.Embedded d) : ∀ e ∈ i.accessors.entries, ∀ x ∈ e.2.handles, d.Own i.stops x i.root := by
  cases h
  assumption

theorem placed (h : i.Embedded d) : ∀ n a view cs, (n, .iterating a view cs) ∈ i.accessors.entries →
    view.IsCompiled ∧ ∀ c ∈ cs, d.Link c.root a := by
  cases h
  assumption

theorem distinct (h : i.Embedded d) : i.stops.Nodup := by
  cases h
  assumption

theorem kept (h : i.Embedded d) : ∀ c ∈ i.generated, c.Embedded d := by
  cases h
  assumption

theorem bare (d : Document) (h : i.accessors = .empty) : i.Embedded d := by
  have hentries : i.accessors.entries = [] := by rw [h]; rfl
  have hgenerated : i.generated = [] := by rw [generated, hentries]; rfl
  refine .mk ?_ ?_ ?_ ?_ ?_
  · rw [h]
    exact List.nodup_nil
  · simp [hentries]
  · simp [hentries]
  · simp [stops, hgenerated]
  · simp [hgenerated]

theorem of_eq (h : i.Embedded d) (hroot : i'.root = i.root) (haccessors : i'.accessors = i.accessors) :
    i'.Embedded d := by
  have hgenerated : i'.generated = i.generated := by rw [generated, generated, haccessors]
  have hstops := stops_congr haccessors
  refine .mk ?_ ?_ ?_ ?_ ?_
  · rw [haccessors]
    exact h.names
  · rw [haccessors, hstops, hroot]
    exact h.own
  · rw [haccessors]
    exact h.placed
  · rw [hstops]
    exact h.distinct
  · rw [hgenerated]
    exact h.kept

theorem own_of_get? (h : i.Embedded d) {a : Accessor Instance} (hget : i.accessors.get? name = some a) :
    ∀ x ∈ a.handles, d.Own i.stops x i.root :=
  h.own (name, a) ((Table.get?_eq_some_iff h.names).mp hget)

theorem placed_of_get? (h : i.Embedded d) {a : NodeId} {view : Blueprint} {cs : List Instance}
    (hget : i.accessors.get? name = some (.iterating a view cs)) :
    view.IsCompiled ∧ ∀ c ∈ cs, d.Link c.root a :=
  h.placed name a view cs ((Table.get?_eq_some_iff h.names).mp hget)

theorem anchor (h : i.Embedded d) (hc : c ∈ i.generated) :
    ∃ a, d.Link c.root a ∧ d.Own i.stops a i.root := by
  obtain ⟨⟨n, a⟩, he, hc⟩ := List.mem_flatMap.mp hc
  cases a with
  | bound ls => cases hc
  | iterating a view cs =>
    exact ⟨a, (h.placed n a view cs he).2 c hc, h.own _ he a List.mem_cons_self⟩

theorem under_root (h : i.Embedded d) (hc : c ∈ i.generated) : d.Under c.root i.root := by
  obtain ⟨a, hlink, hown⟩ := h.anchor hc
  exact .head hlink hown.under

section Rooted

variable (h : i.Embedded d) (hr : d.Rooted i.root)
include h hr

theorem not_under_child (hc : c ∈ i.generated) : ¬ d.Under i.root c.root := by
  obtain ⟨a, hlink, hown⟩ := h.anchor hc
  exact hr.not_under (.head' hlink hown.under)

theorem own_not_under (hx : d.Own i.stops x i.root) (hc : c ∈ i.generated) : ¬ d.Under x c.root :=
  hx.not_under (List.mem_map_of_mem hc) (h.not_under_child hr hc)

theorem apart (hc : c ∈ i.generated) (hc' : c' ∈ i.generated) (hne : c.root ≠ c'.root)
    (hx : d.Under x c.root) : ¬ d.Under x c'.root := by
  have hup : ∀ {c c' : Instance}, c ∈ i.generated → c' ∈ i.generated → c.root ≠ c'.root →
      ¬ d.Under c.root c'.root := by
    intro c c' hc hc' hne hup
    obtain ⟨a, hlink, hown⟩ := h.anchor hc
    rcases Relation.ReflTransGen.cases_head hup with e | ⟨q, hq, hup⟩
    · exact hne e
    · obtain rfl := hq.unique hlink
      exact h.own_not_under hr hown hc' hup
  intro hx'
  rcases hx.total hx' with h₁ | h₂
  · exact hup hc hc' hne h₁
  · exact hup hc' hc (Ne.symm hne) h₂

end Rooted

theorem of_links (h : i.Embedded d)
    (keep : ∀ c p, d.Link c p → d.Under p i.root → d'.Link c p) : i.Embedded d' := by
  induction h with
  | @mk i names own placed distinct kept ih =>
    have hi : i.Embedded d := .mk names own placed distinct kept
    refine .mk names (fun e he x hx => ?_) (fun n a view cs he => ?_) distinct fun c hc => ?_
    · exact (own e he x hx).of_links fun c p hlink hstop hown => ⟨keep c p hlink hown.under, hstop⟩
    · refine ⟨(placed n a view cs he).1, fun c hc => ?_⟩
      exact keep _ _ ((placed n a view cs he).2 c hc) (own _ he a List.mem_cons_self).under
    · exact ih c hc fun c' q hlink hup => keep c' q hlink (hup.trans (hi.under_root hc))

theorem frame (h : i.Embedded d) (same : ∀ x, d.Under x i.root → d'.node? x = d.node? x) : i.Embedded d' :=
  h.of_links fun c p hlink hup =>
    (link_of_nodes (same c (.head hlink hup)) (same p hup)).mpr hlink

theorem descend? (h : i.Embedded d) (hg : i.descend? p = some g) : g.Embedded d ∧ d.Under g.root i.root := by
  induction p generalizing i with
  | nil =>
    obtain rfl := Option.some.inj hg
    exact ⟨h, .refl⟩
  | cons q p ih =>
    obtain ⟨name, place⟩ := q
    obtain ⟨c, hc, hg⟩ := Option.bind_eq_some_iff.mp hg
    have hmem := mem_generated_of_mem_children (List.mem_of_getElem? hc)
    obtain ⟨hembedded, hup⟩ := ih (h.kept c hmem) hg
    exact ⟨hembedded, hup.trans (h.under_root hmem)⟩

theorem rename_congr (h : i.Embedded d) {f f' : NodeId → NodeId}
    (same : ∀ x, d.Under x i.root → f' x = f x) : i.rename f' = i.rename f := by
  induction h with
  | @mk i names own placed distinct kept ih =>
    have hi : i.Embedded d := .mk names own placed distinct kept
    rw [rename_eq, rename_eq, same i.root .refl]
    congr 1
    rw [Table.map, Table.map]
    congr 1
    refine List.map_congr_left fun e he => ?_
    obtain ⟨n, a⟩ := e
    cases a with
    | bound ls =>
      simp only [Accessor.rename]
      congr 2
      exact List.map_congr_left fun r hr =>
        BoundLocation.rename_congr (same _ (own _ he _ (List.mem_map_of_mem hr)).under)
    | iterating a view cs =>
      simp only [Accessor.rename]
      rw [same a (own _ he a List.mem_cons_self).under]
      congr 2
      refine List.map_congr_left fun c hc => ?_
      have hmem : c ∈ i.generated := List.mem_flatMap.mpr ⟨_, he, hc⟩
      exact ih c hmem fun x hx => same x (hx.trans (hi.under_root hmem))

/-! ### Changes to one of the family -/

theorem root_ne (h : i.Embedded d) {before after : List Instance}
    (hgenerated : i.generated = before ++ i.children name ++ after) (hc : c ∈ before ++ after)
    (hc' : c' ∈ i.children name) : c.root ≠ c'.root := by
  have hdistinct := h.distinct
  rw [stops, hgenerated, List.map_append, List.map_append, List.append_assoc,
    (List.perm_append_comm_assoc _ _ _).nodup_iff, List.nodup_append, ← List.map_append] at hdistinct
  exact fun e => hdistinct.2.2 _ (List.mem_map_of_mem hc') _ (List.mem_map_of_mem hc) e.symm

theorem redefine (h : i.Embedded d) (name : String) {a : Accessor Instance}
    (ways : ∀ x, d.Own i.stops x i.root → d'.Own (i.withAccessor name a).stops x i.root)
    (own : ∀ x ∈ a.handles, d.Own i.stops x i.root)
    (placed : ∀ anchor view cs, a = .iterating anchor view cs →
      view.IsCompiled ∧ ∀ c ∈ cs, d'.Link c.root anchor)
    (distinct : (i.withAccessor name a).stops.Nodup)
    (kept : ∀ c ∈ a.children, c.Embedded d')
    (others : ∀ c ∈ i.generated, (∀ z ∈ i.children name, c.root ≠ z.root) →
      c.Embedded d' ∧ ∀ p, d.Link c.root p → d'.Link c.root p) : (i.withAccessor name a).Embedded d' := by
  obtain ⟨before, after, hgenerated, hnew, hentries⟩ := exists_generated_withAccessor h.names name
  have hothers : ∀ c ∈ before ++ after, c.Embedded d' ∧ ∀ p, d.Link c.root p → d'.Link c.root p := by
    intro c hc
    refine others c ?_ fun z hz => h.root_ne hgenerated hc hz
    rw [hgenerated]
    simp only [List.mem_append] at hc ⊢
    tauto
  refine .mk (Table.nodup_names_put h.names _ _) (fun e he x hx => ?_) (fun n a' view' cs' he => ?_)
    distinct fun k hk => ?_
  · rcases hentries a e he with rfl | ⟨he, -⟩
    · exact ways x (own x hx)
    · exact ways x (h.own e he x hx)
  · rcases hentries a _ he with he | ⟨he, hcs⟩
    · exact placed a' view' cs' (Prod.mk.inj he).2.symm
    · obtain ⟨hview, hlinks⟩ := h.placed n a' view' cs' he
      exact ⟨hview, fun c hc => (hothers c (hcs hc)).2 _ (hlinks c hc)⟩
  · rw [hnew a, List.mem_append, List.mem_append] at hk
    rcases hk with (hk | hk) | hk
    · exact (hothers k (List.mem_append_left _ hk)).1
    · exact kept k hk
    · exact (hothers k (List.mem_append_right _ hk)).1

theorem distinct_children (h : i.Embedded d) (name : String) : ((i.children name).map root).Nodup := by
  obtain ⟨before, after, hgenerated, -, -⟩ := exists_generated_withAccessor h.names name
  have hdistinct := h.distinct
  rw [stops, hgenerated, List.map_append, List.map_append] at hdistinct
  exact hdistinct.of_append_left.of_append_right

theorem root_ne_of_ne (h : i.Embedded d) {other : String} (hne : other ≠ name)
    (hc : c ∈ i.children other) (hc' : c' ∈ i.children name) : c.root ≠ c'.root := by
  obtain ⟨before, after, hgenerated, hnew, -⟩ := exists_generated_withAccessor h.names name
  have hmem : c ∈ before ++ after := by
    have hsame : (i.withAccessor name (.bound [])).children other = i.children other := by
      rw [children_eq, children_eq, Instance.withAccessor, Table.get?_put_of_ne _ _ hne]
    have hkept := mem_generated_of_mem_children (hsame ▸ hc)
    rwa [hnew, Accessor.children, List.append_nil] at hkept
  exact h.root_ne hgenerated hmem hc'

theorem map_root_set {cs : List Instance} {place : Nat} (hc : cs[place]? = some c)
    (hroot : c'.root = c.root) : (cs.set place c').map root = cs.map root := by
  obtain ⟨hlt, rfl⟩ := List.getElem?_eq_some_iff.mp hc
  rw [List.map_set, hroot, ← List.getElem_map root (h := by simpa using hlt), List.set_getElem_self]

theorem stops_withChild (h : i.Embedded d) {place : Nat} (hc : (i.children name)[place]? = some c)
    (hroot : c'.root = c.root) : (i.withChild name place c').stops = i.stops := by
  obtain ⟨a, view, cs, hget, rfl⟩ := exists_get?_of_mem_children (List.mem_of_getElem? hc)
  have hroots := map_root_set hc hroot
  obtain ⟨before, after, hgenerated, hnew, -⟩ := exists_generated_withAccessor h.names name
  rw [Instance.withChild, hget]
  dsimp only
  rw [stops, stops, hnew, hgenerated, Accessor.children]
  simp only [List.map_append, hroots]

/-- A change to one of the family leaves the instance's own nodes to it, unless it is the one that
changes. -/
theorem stops_replaceAt (h : i.Embedded d) (hg : i.descend? p = some g) (hroot : g'.root = g.root)
    (hself : p = [] → g'.stops = g.stops) : (i.replaceAt g' p).stops = i.stops := by
  cases p with
  | nil =>
    obtain rfl := Option.some.inj hg
    exact hself rfl
  | cons q p =>
    obtain ⟨name, place⟩ := q
    obtain ⟨c, hc, hg⟩ := Option.bind_eq_some_iff.mp hg
    rw [replaceAt_cons hc]
    exact h.stops_withChild hc (root_replaceAt hg hroot)

theorem own_not_under_family (h : i.Embedded d) (hr : d.Rooted i.root) (hg : i.descend? p = some g)
    (hc : c ∈ g.generated) (hx : d.Own i.stops x i.root) : ¬ d.Under x c.root := by
  cases p with
  | nil =>
    obtain rfl := Option.some.inj hg
    exact h.own_not_under hr hx hc
  | cons q p =>
    obtain ⟨name, place⟩ := q
    obtain ⟨k, hk, hg⟩ := Option.bind_eq_some_iff.mp hg
    have hmem := mem_generated_of_mem_children (List.mem_of_getElem? hk)
    obtain ⟨hgs, hgk⟩ := (h.kept k hmem).descend? hg
    exact fun hup => h.own_not_under hr hx hmem ((hup.trans (hgs.under_root hc)).trans hgk)

theorem mem_set_children (h : i.Embedded d) {k : Instance} {place : Nat}
    (hc : (i.children name)[place]? = some c) (hk : k ∈ (i.children name).set place c') :
    k = c' ∨ k ∈ i.children name ∧ k.root ≠ c.root := by
  obtain ⟨n, hn⟩ := List.mem_iff_getElem?.mp hk
  by_cases hplace : place = n
  · subst hplace
    obtain ⟨hlt, -⟩ := List.getElem?_eq_some_iff.mp hc
    rw [List.getElem?_set_self hlt] at hn
    exact .inl (Option.some.inj hn).symm
  · rw [List.getElem?_set_ne hplace] at hn
    refine .inr ⟨List.mem_of_getElem? hn, fun e => ?_⟩
    have hsame : ((i.children name).map root)[n]? = ((i.children name).map root)[place]? := by
      rw [List.getElem?_map, List.getElem?_map, hn, hc, Option.map_some, Option.map_some, e]
    obtain ⟨hlt, -⟩ := List.getElem?_eq_some_iff.mp hn
    exact hplace ((List.getElem?_inj (by simpa using hlt) (h.distinct_children name)).mp hsame).symm

theorem embedded_beside (h : i.Embedded d) (hr : d.Rooted i.root) {k : Instance} (hc : c ∈ i.generated)
    (keep : ∀ x p, d.Link x p → ¬ d.Under p c.root → d'.Link x p) (hk : k ∈ i.generated)
    (hne : k.root ≠ c.root) : k.Embedded d' ∧ ∀ p, d.Link k.root p → d'.Link k.root p := by
  refine ⟨(h.kept k hk).of_links fun x q hlink hup =>
    keep x q hlink (h.apart hr hk hc hne hup), fun p hlink => ?_⟩
  obtain ⟨q, hq, hown⟩ := h.anchor hk
  obtain rfl := hq.unique hlink
  exact keep _ _ hlink (h.own_not_under hr hown hc)

theorem withChild (h : i.Embedded d) (hr : d.Rooted i.root) {place : Nat}
    (hc : (i.children name)[place]? = some c) (hroot : c'.root = c.root) (hembedded : c'.Embedded d')
    (keep : ∀ x p, d.Link x p → ¬ d.Under p c.root → d'.Link x p) :
    (i.withChild name place c').Embedded d' := by
  obtain ⟨a, view, cs, hget, rfl⟩ := exists_get?_of_mem_children (List.mem_of_getElem? hc)
  have hmem := mem_generated_of_mem_children (List.mem_of_getElem? hc)
  have hroots := map_root_set hc hroot
  have hstops : (i.withAccessor name (.iterating a view ((i.children name).set place c'))).stops =
      i.stops := by
    have hset := h.stops_withChild hc hroot
    rwa [Instance.withChild, hget] at hset
  have hkeep : ∀ x p, d.Link x p → d.Own i.stops p i.root → d'.Link x p := fun x p hlink hown =>
    keep x p hlink (h.own_not_under hr hown hmem)
  rw [Instance.withChild, hget]
  dsimp only
  refine h.redefine name (fun x hown => ?_) (fun x hx => h.own_of_get? hget x hx) ?_
    (hstops ▸ h.distinct) (fun k hk => ?_)
    fun k hk hne => h.embedded_beside hr hmem keep hk (hne c (List.mem_of_getElem? hc))
  · rw [hstops]
    exact hown.of_links fun x p hlink hstop hp => ⟨hkeep x p hlink hp, hstop⟩
  · rintro anchor view' cs' he
    obtain ⟨rfl, rfl, rfl⟩ := Accessor.iterating.inj he
    obtain ⟨hview, hlinks⟩ := h.placed_of_get? hget
    refine ⟨hview, fun k hk => ?_⟩
    obtain ⟨k₀, hk₀, e⟩ := List.mem_map.mp (hroots ▸ List.mem_map_of_mem hk)
    rw [← e]
    exact hkeep _ _ (hlinks k₀ hk₀) (h.own_of_get? hget a List.mem_cons_self)
  · rcases h.mem_set_children hc hk with rfl | ⟨hk, hne⟩
    · exact hembedded
    · exact (h.embedded_beside hr hmem keep (mem_generated_of_mem_children hk) hne).1

theorem replaceAt (h : i.Embedded d) (hr : d.Rooted i.root) (hg : i.descend? p = some g)
    (hroot : g'.root = g.root) (hembedded : g'.Embedded d')
    (keep : ∀ x q, d.Link x q → ¬ d.Under q g.root → d'.Link x q) : (i.replaceAt g' p).Embedded d' := by
  induction p generalizing i with
  | nil => exact hembedded
  | cons q p ih =>
    obtain ⟨name, place⟩ := q
    obtain ⟨c, hc, hg⟩ := Option.bind_eq_some_iff.mp hg
    have hmem := mem_generated_of_mem_children (List.mem_of_getElem? hc)
    have hup := h.under_root hmem
    rw [replaceAt_cons hc]
    refine h.withChild hr hc (root_replaceAt hg hroot) (ih (h.kept c hmem) (hr.of_under hup) hg) ?_
    intro x q hlink hq
    exact keep x q hlink fun hqg => hq (hqg.trans ((h.kept c hmem).descend? hg).2)

theorem own_withAccessor (h : g.Embedded d) (hr : d.Rooted g.root) {a : Accessor Instance}
    (keep : ∀ x p, d.Link x p → (∀ z ∈ g.children name, ¬ d.Under x z.root) → d'.Link x p)
    (fresh : ∀ b ∈ a.children, d.parent? b.root = none) (hx : d.Own g.stops x g.root) :
    d'.Own (g.withAccessor name a).stops x g.root := by
  obtain ⟨before, after, hgenerated, hnew, -⟩ := exists_generated_withAccessor h.names name
  refine hx.of_links fun c p hlink hc hp => ⟨keep c p hlink fun z hz => ?_, fun hmem => ?_⟩
  · exact h.own_not_under hr (.head ⟨hlink, hc⟩ hp) (mem_generated_of_mem_children hz)
  · rw [stops, hnew, List.map_append, List.map_append, List.mem_append, List.mem_append] at hmem
    rw [stops, hgenerated, List.map_append, List.map_append, List.mem_append, List.mem_append,
      not_or, not_or] at hc
    rcases hmem with (hmem | hmem) | hmem
    · exact hc.1.1 hmem
    · obtain ⟨b, hb, rfl⟩ := List.mem_map.mp hmem
      have hnone := fresh b hb
      rw [hlink.1] at hnone
      cases hnone
    · exact hc.2 hmem

theorem withAccessor (h : g.Embedded d) (hr : d.Rooted g.root) {a : Accessor Instance}
    (keep : ∀ x p, d.Link x p → (∀ z ∈ g.children name, ¬ d.Under x z.root) → d'.Link x p)
    (fresh : ∀ b ∈ a.children, d.parent? b.root = none)
    (own : ∀ x ∈ a.handles, d.Own g.stops x g.root)
    (placed : ∀ anchor view cs, a = .iterating anchor view cs →
      view.IsCompiled ∧ ∀ c ∈ cs, d'.Link c.root anchor)
    (distinct : (a.children.map root).Nodup) (kept : ∀ b ∈ a.children, b.Embedded d') :
    (g.withAccessor name a).Embedded d' := by
  have hformer : ∀ z ∈ g.children name, z ∈ g.generated := fun z hz =>
    mem_generated_of_mem_children hz
  refine h.redefine name (fun y hy => h.own_withAccessor hr keep fresh hy) own placed ?_ kept
    fun k hk hne => ?_
  · obtain ⟨before, after, hgenerated, hnew, -⟩ := exists_generated_withAccessor h.names name
    have hdistinct := h.distinct
    rw [stops, hgenerated, List.map_append, List.map_append, List.append_assoc,
      (List.perm_append_comm_assoc _ _ _).nodup_iff] at hdistinct
    rw [stops, hnew, List.map_append, List.map_append, List.append_assoc,
      (List.perm_append_comm_assoc _ _ _).nodup_iff, List.nodup_append]
    refine ⟨distinct, hdistinct.of_append_right, ?_⟩
    rintro x hx y hy rfl
    obtain ⟨b, hb, hbx⟩ := List.mem_map.mp hx
    rw [← List.map_append] at hy
    obtain ⟨k, hk, hkx⟩ := List.mem_map.mp hy
    have hmem : k ∈ g.generated := by
      rw [hgenerated]
      simp only [List.mem_append] at hk ⊢
      tauto
    obtain ⟨q, hlink, -⟩ := h.anchor hmem
    have hnone := fresh b hb
    rw [hbx, ← hkx, hlink.1] at hnone
    cases hnone
  · refine ⟨(h.kept k hk).of_links fun x q hlink hup => ?_, fun p hlink => ?_⟩
    · exact keep x q hlink fun z hz => h.apart hr hk (hformer z hz) (hne z hz) (.head hlink hup)
    · exact keep _ _ hlink fun z hz => h.apart hr hk (hformer z hz) (hne z hz) .refl

end Embedded

end Instance

end LiveMarkup
