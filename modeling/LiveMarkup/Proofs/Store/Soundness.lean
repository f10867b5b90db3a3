import LiveMarkup.Proofs.Store.Independence

/-!
# Handles stay valid

After any run, each node that an instance holds on to is a live one in its own subtree, and each live
node of a document is in the subtree of exactly one of the instances that were placed there. Between
the acts of a run, and within each of them, only nodes are freed that no instance holds on to any more.
-/

namespace LiveMarkup

open Document

namespace Instance

/-- The nodes that an instance holds on to: its root, its locations and anchors, and the roots of the
instances that it keeps. -/
def holdings (i : Instance) : List NodeId :=
  i.root :: i.accessors.entries.flatMap fun e => e.2.handles ++ e.2.children.map root

theorem Embedded.under_of_mem_holdings {d : Document} {i : Instance} {x : NodeId} (h : i.Embedded d)
    (hx : x ∈ i.holdings) : d.Under x i.root := by
  rw [holdings, List.mem_cons, List.mem_flatMap] at hx
  rcases hx with rfl | ⟨e, he, hx⟩
  · exact .refl
  · rw [List.mem_append] at hx
    rcases hx with hx | hx
    · exact (h.own e he x hx).under
    · obtain ⟨c, hc, rfl⟩ := List.mem_map.mp hx
      exact h.under_root (List.mem_flatMap.mpr ⟨e, he, hc⟩)

end Instance

theorem Owned.mem_descendants_iff {d₀ d : Document} {ss : List Shape} {is : List Instance}
    {i : Instance} {x r : NodeId} (h : Owned d₀ d ss is) (hi : i ∈ is) (hr : d.Under r i.root) :
    x ∈ d.descendants r ↔ d.Under x r := by
  obtain ⟨s, hs, hid⟩ := h.exists_shape hi
  have hheld := h.grown.holds s hs
  have hn : s.ids.Nodup := (List.nodup_flatMap.mp h.grown.nodup).1 s hs
  have hmem : r ∈ s.ids := hheld.mem_ids_iff.mpr (hid ▸ hr)
  by_cases hroot : r = s.id
  · subst hroot
    rw [hheld.descendants hn, hheld.mem_ids_iff]
  · obtain ⟨p, c, rfl, hc, -, -, -, -, hnc⟩ := hheld.exists_subshape hn hmem hroot
    rw [hc.descendants hnc, hc.mem_ids_iff]

namespace EngineState

variable {w w' : EngineState}

/-- The instances of the state, and all of their families, hold on to live nodes of their own, and
share the document among them. -/
structure Sound (w : EngineState) : Prop where
  live : ∀ i ∈ w.instances, ∀ way g, i.descend? way = some g → ∀ x ∈ g.holdings,
    w.document.contains x = true ∧ x ∈ w.document.descendants g.root
  apart : ∀ i ∈ w.instances, ∀ way g, i.descend? way = some g → ∀ e ∈ g.accessors.entries,
    ∀ x ∈ e.2.handles, ∀ c ∈ g.generated, x ∉ w.document.descendants c.root
  placed : ∀ i ∈ w.instances, ∀ way g, i.descend? way = some g →
    ∀ n a view cs, (n, .iterating a view cs) ∈ g.accessors.entries →
    ∀ c ∈ cs, c.root ∈ w.document.children a
  parted : ∀ x, w.document.contains x = true → ∃ i others, w.instances = i ::ₘ others ∧
    x ∈ w.document.descendants i.root ∧ ∀ k ∈ others, x ∉ w.document.descendants k.root

theorem Owned.sound (h : w.Owned .empty) : w.Sound := by
  obtain ⟨ss, is, hinstances, h⟩ := h
  have hfocus : ∀ i ∈ w.instances, ∀ way g, i.descend? way = some g →
      i ∈ is ∧ g.Embedded w.document ∧ w.document.Under g.root i.root := by
    intro i hi way g hg
    rw [hinstances, Multiset.mem_coe] at hi
    exact ⟨hi, (h.embedded i hi).descend? hg⟩
  refine ⟨fun i hi way g hg x hx => ?_, fun i hi way g hg e he x hx c hc hmem => ?_,
    fun i hi way g hg n a view cs he c hc => ?_, fun x hx => ?_⟩
  · obtain ⟨hi, hgs, hgi⟩ := hfocus i hi way g hg
    have hup := hgs.under_of_mem_holdings hx
    refine ⟨?_, (h.mem_descendants_iff hi hgi).mpr hup⟩
    obtain ⟨s, hs, hid⟩ := h.exists_shape hi
    have hheld := h.grown.holds s hs
    exact contains_iff.mpr (hheld.live x (hheld.mem_ids_iff.mpr (hid ▸ hup.trans hgi)))
  · obtain ⟨hi, hgs, hgi⟩ := hfocus i hi way g hg
    have hc' := (hgs.under_root hc).trans hgi
    rw [h.mem_descendants_iff hi hc'] at hmem
    obtain ⟨s, hs, hid⟩ := h.exists_shape hi
    have hheld := h.grown.holds s hs
    have hrooted := hheld.rooted (hheld.mem_ids_iff.mpr (hid ▸ hgi))
    exact hgs.own_not_under hrooted (hgs.own e he x hx) hc hmem
  · obtain ⟨hi, hgs, hgi⟩ := hfocus i hi way g hg
    exact ((hgs.placed n a view cs he).2 c hc).2
  · obtain ⟨n, hn⟩ := contains_iff.mp hx
    have hmem : x ∈ ss.flatMap Shape.ids := by
      by_contra hout
      rw [h.grown.frame x hout] at hn
      cases hn
    obtain ⟨s, hs, hxs⟩ := List.mem_flatMap.mp hmem
    obtain ⟨i, hi, hid⟩ := List.mem_map.mp (h.roots ▸ List.mem_map_of_mem hs)
    have hup : w.document.Under x i.root := hid ▸ (h.grown.holds s hs).mem_ids_iff.mp hxs
    obtain ⟨before, after, rfl⟩ := List.append_of_mem hi
    obtain ⟨ss', hhead⟩ := h.perm List.perm_middle
    obtain ⟨s', ss', rfl, -, -⟩ := List.map_eq_cons_iff.mp hhead.roots
    refine ⟨i, ↑(before ++ after), ?_, (h.mem_descendants_iff hi .refl).mpr hup, fun k hk hxk => ?_⟩
    · rw [hinstances, Multiset.cons_coe]
      exact Multiset.coe_eq_coe.mpr List.perm_middle
    · rw [Multiset.mem_coe] at hk
      have hk' : k ∈ before ++ i :: after := List.perm_middle.mem_iff.mpr (List.mem_cons_of_mem _ hk)
      exact hhead.apart hup k hk ((h.mem_descendants_iff hk' .refl).mp hxk)

/-- A step after which the instances are sound and hold on to nothing that it frees. -/
def SoundStep (w w' : EngineState) : Prop := ∃ freed, Step w freed w' ∧ w'.Sound ∧
  ∀ x ∈ freed, ∀ i ∈ w'.instances, ∀ way g, i.descend? way = some g → x ∉ g.holdings

theorem Step.soundStep {freed : List NodeId} (h : Step w freed w') (hw : w.Owned .empty) :
    w.SoundStep w' := by
  have hsound := (h.owned hw).sound
  refine ⟨freed, h, hsound, fun x hx i hi way g hg hmem => ?_⟩
  obtain ⟨n, hn⟩ := contains_iff.mp (hsound.live i hi way g hg x hmem).1
  rw [h.gone hx] at hn
  cases hn

theorem Reaches.soundStep (h : w.Reaches w') (hw : w.Owned .empty) :
    Relation.ReflTransGen SoundStep w w' := by
  induction h with
  | refl => exact .refl
  | tail hreach hstep ih =>
    obtain ⟨freed, hstep⟩ := hstep
    exact ih.tail (hstep.soundStep (Reaches.owned hreach hw))

end EngineState

abbrev Stores := Table Store

namespace Stores

def store (e : Stores) (document : String) : Store := (Table.get? e document).getD .empty

def perform (e : Stores) (document : String) (a : Act) : Stores :=
  Table.put e document ((e.store document).perform a).1

def run (e : Stores) (acts : List (String × Act)) : Stores :=
  acts.foldl (fun e a => e.perform a.1 a.2) e

variable {e : Stores} {document other : String} {a : Act}

theorem store_perform : (e.perform document a).store other =
    if other = document then ((e.store document).perform a).1 else e.store other := by
  rw [store, perform]
  split
  · rename_i h
    rw [h, Table.get?_put_self]
    rfl
  · rename_i h
    rw [Table.get?_put_of_ne _ _ h]
    rfl

def Shared (e : Stores) : Prop := ∀ document, ∃ b, Store.Shared .empty (e.store document) b

theorem Shared.empty : Shared .empty := fun _ => ⟨_, .empty tidy_empty⟩

theorem Shared.perform (h : e.Shared) (ha : a.Compiled) (document : String) :
    (e.perform document a).Shared ∧ ∀ other, Relation.ReflTransGen EngineState.SoundStep
      (e.store other).state ((e.perform document a).store other).state := by
  obtain ⟨b, hb⟩ := h document
  obtain ⟨hshared, -, hreaches⟩ := hb.perform ha
  refine ⟨fun other => ?_, fun other => ?_⟩
  · rw [store_perform]
    split
    · exact ⟨_, hshared⟩
    · exact h other
  · rw [store_perform]
    split
    · rename_i hother
      rw [hother]
      exact hreaches.soundStep hb.owned
    · exact .refl

theorem Shared.run (h : e.Shared) {acts : List (String × Act)}
    (compiled : ∀ a ∈ acts, a.2.Compiled) : (e.run acts).Shared := by
  induction acts generalizing e with
  | nil => exact h
  | cons a acts ih =>
    exact ih (h.perform (compiled a List.mem_cons_self) a.1).1 fun a' ha' =>
      compiled a' (List.mem_cons_of_mem _ ha')

/-- After any acts the instances in each document are sound, and each act leads there by steps that
free nothing that an instance holds on to. -/
theorem sound_run {acts : List (String × Act)} (compiled : ∀ a ∈ acts, a.2.Compiled) (document : String) :
    ((run .empty acts).store document).state.Sound ∧
      ∀ other a, a.Compiled → Relation.ReflTransGen EngineState.SoundStep
        ((run .empty acts).store document).state
        (((run .empty acts).perform other a).store document).state := by
  have hshared := Shared.empty.run compiled
  obtain ⟨b, hb⟩ := hshared document
  exact ⟨hb.owned.sound, fun other a ha => (hshared.perform ha other).2 document⟩

def acrossDocuments (b : Blueprint) : List (String × Act) :=
  ((Store.interleavedActs b).map fun a => ("page", a)) ++
    ((Store.interleavedActs b).take 3).map fun a => ("note", a)

theorem sound_run_acrossDocuments : ∃ b log, Blueprint.compile .standard listText none = (.ok b, log) ∧
    ((run .empty (acrossDocuments b)).store "page").state.Sound ∧
      ∀ other a, a.Compiled → Relation.ReflTransGen EngineState.SoundStep
        ((run .empty (acrossDocuments b)).store "page").state
        (((run .empty (acrossDocuments b)).perform other a).store "page").state := by
  obtain ⟨b, log, hcompile, hb⟩ := Store.exists_compiled_listText
  refine ⟨b, log, hcompile, sound_run (fun a ha => ?_) "page"⟩
  rcases List.mem_append.mp ha with ha | ha
  · obtain ⟨act, hact, rfl⟩ := List.mem_map.mp ha
    exact Store.compiled_interleavedActs hb act hact
  · obtain ⟨act, hact, rfl⟩ := List.mem_map.mp ha
    exact Store.compiled_interleavedActs hb act (List.mem_of_mem_take hact)

end Stores

end LiveMarkup
