import LiveMarkup.Proofs.Store.Ownership
import Mathlib.Data.Multiset.AddSub

/-!
# Steps

What the engine does to the instances that share a document comes down to a few kinds of steps. Each of
them either takes slots or frees some, never both, so no slot is used again within a step. After a step
each instance still owns a tree, and what has been freed is named by no handle.
-/

namespace LiveMarkup

open Document

namespace Document

variable {d : Document} {x y : NodeId} {i : Instance} {is former batch : List Instance}

/-- The slots that are freed when a subtree goes. -/
def freed (d : Document) (id : NodeId) : List NodeId :=
  if d.contains id then (d.detach id).freeingOrder id else []

def freedAll (d : Document) : List Instance → List NodeId
  | [] => []
  | i :: is => d.freed i.root ++ (d.remove i.root).freedAll is

theorem remove_eq (d : Document) (id : NodeId) :
    d.remove id = (d.freed id).foldl release (if d.contains id then d.detach id else d) := by
  rw [remove, freed]
  split <;> rfl

theorem node?_remove_eq_none (h : d.node? x = none ∨ x ∈ d.freed y) :
    (d.remove y).node? x = none := by
  rw [remove_eq, node?_foldl_release]
  by_cases hx : x ∈ d.freed y
  · rw [if_pos hx]
  · rw [if_neg hx]
    split
    · rw [node?_detach, h.resolve_right hx]
      rfl
    · exact h.resolve_right hx

theorem node?_removeRoots_eq_none (h : d.node? x = none ∨ x ∈ d.freedAll is) :
    (Instance.removeRoots d is).node? x = none := by
  induction is generalizing d with
  | nil => exact h.resolve_right List.not_mem_nil
  | cons i is ih =>
    rw [freedAll, List.mem_append, ← or_assoc] at h
    exact ih (h.imp_left node?_remove_eq_none)

theorem node?_append_eq_none {a c : NodeId} (h : d.node? x = none) :
    (d.append a c).node? x = none := by
  rw [append, insertBefore]
  split
  · exact h
  · rw [node?_modify_eq_none, node?_modify_eq_none, node?_detach, h]
    rfl

theorem node?_appendRoots_eq_none {a : NodeId} (h : d.node? x = none) :
    (Instance.appendRoots d a batch).node? x = none := by
  induction batch generalizing d with
  | nil => exact h
  | cons b batch ih => exact ih (d := d.append a b.root) (node?_append_eq_none h)

theorem node?_renewed_eq_none {a : NodeId} (h : d.node? x = none ∨ x ∈ d.freedAll former) :
    (d.renewed former batch a).node? x = none :=
  node?_appendRoots_eq_none (node?_removeRoots_eq_none h)

end Document

structure EngineState where
  document : Document
  instances : Multiset Instance

namespace EngineState

def add (w : EngineState) (more : Multiset Instance) : EngineState := ⟨w.document, w.instances + more⟩

/-- One step from a state to another one, and the slots that it frees. -/
inductive Step : EngineState → List NodeId → EngineState → Prop where
  | plant {d : Document} {instances : Multiset Instance} {i : Instance} (t : Tree)
      (root : i.root = (d.graft t).2) (bare : i.accessors = .empty) :
      Step ⟨d, instances⟩ [] ⟨(d.graft t).1, i ::ₘ instances⟩
  | tell {d : Document} {instances : Multiset Instance} {i g g' : Instance} {p : List (String × Nat)}
      (focus : i.descend? p = some g) (root : g'.root = g.root)
      (accessors : g'.accessors = g.accessors) :
      Step ⟨d, i ::ₘ instances⟩ [] ⟨d, i.replaceAt g' p ::ₘ instances⟩
  | write {d : Document} {instances : Multiset Instance} {i g : Instance} {p : List (String × Nat)}
      {name : String} {ls : List BoundLocation} (focus : i.descend? p = some g)
      (get : g.accessors.get? name = some (.bound ls)) (values : Table Json) :
      Step ⟨d, i ::ₘ instances⟩ [] ⟨Instance.writeLocations d name values ls, i ::ₘ instances⟩
  | attach {d : Document} {instances : Multiset Instance} {i g : Instance} {p : List (String × Nat)}
      (focus : i.descend? p = some g) (t : Tree) :
      Step ⟨d, i ::ₘ instances⟩ [] ⟨(d.graft t).1.append g.root (d.graft t).2, i ::ₘ instances⟩
  | renew {d : Document} {instances : Multiset Instance} {i g : Instance} {p : List (String × Nat)}
      {ac : Accessor Instance} {a : NodeId} (focus : i.descend? p = some g) (name : String)
      (anchor : d.Own g.stops a g.root) (handles : ∀ x ∈ ac.handles, d.Own g.stops x g.root)
      (view : ∀ a' view cs, ac = .iterating a' view cs → a' = a ∧ view.IsCompiled) :
      Step ⟨d, i ::ₘ (↑ac.children + instances)⟩ (d.freedAll (g.children name))
        ⟨d.renewed (g.children name) ac.children a, i.replaceAt (g.withAccessor name ac) p ::ₘ instances⟩
  | discard {d : Document} {instances : Multiset Instance} (batch : List Instance) :
      Step ⟨d, ↑batch + instances⟩ (d.freedAll batch) ⟨Instance.removeRoots d batch, instances⟩

variable {d₀ : Document} {w w' : EngineState} {freed : List NodeId} {x : NodeId}

theorem Step.add (h : Step w freed w') (more : Multiset Instance) :
    Step (w.add more) freed (w'.add more) := by
  cases h with
  | plant t root bare =>
    rw [EngineState.add, EngineState.add, Multiset.cons_add]
    exact .plant t root bare
  | tell focus root accessors =>
    rw [EngineState.add, EngineState.add, Multiset.cons_add, Multiset.cons_add]
    exact .tell focus root accessors
  | write focus get values =>
    rw [EngineState.add, EngineState.add, Multiset.cons_add]
    exact .write focus get values
  | attach focus t =>
    rw [EngineState.add, EngineState.add, Multiset.cons_add]
    exact .attach focus t
  | renew focus name anchor handles view =>
    rw [EngineState.add, EngineState.add, Multiset.cons_add, Multiset.cons_add, add_assoc]
    exact .renew focus name anchor handles view
  | discard batch =>
    rw [EngineState.add, EngineState.add, add_assoc]
    exact .discard batch

theorem Step.gone (h : Step w freed w') (hx : x ∈ freed) : w'.document.node? x = none := by
  cases h with
  | plant | tell | write | attach => cases hx
  | renew focus name anchor handles view => exact node?_renewed_eq_none (.inr hx)
  | discard batch => exact node?_removeRoots_eq_none (.inr hx)

/-- The instances of the state own trees in its document, which is otherwise `d₀`. -/
def Owned (d₀ : Document) (w : EngineState) : Prop :=
  ∃ (ss : List Shape) (is : List Instance), w.instances = ↑is ∧ LiveMarkup.Owned d₀ w.document ss is

theorem Owned.of_eq {ss : List Shape} {is : List Instance}
    (h : LiveMarkup.Owned d₀ w.document ss is) (hinstances : w.instances = ↑is) : w.Owned d₀ :=
  ⟨ss, is, hinstances, h⟩

theorem Owned.listed (h : w.Owned d₀) (is : List Instance) (hinstances : w.instances = ↑is) :
    ∃ ss, LiveMarkup.Owned d₀ w.document ss is := by
  obtain ⟨ss, is', hinstances', h⟩ := h
  exact h.perm (Multiset.coe_eq_coe.mp (hinstances'.symm.trans hinstances))

theorem Step.owned (hs : Step w freed w') (h : w.Owned d₀) : w'.Owned d₀ := by
  cases hs with
  | @plant d instances i t root bare =>
    obtain ⟨is, rfl⟩ := Quot.exists_rep instances
    obtain ⟨ss, h⟩ := h.listed is rfl
    obtain ⟨c, hc, hid⟩ := h.grown.tidy.graft t
    have hnew : LiveMarkup.Owned d (d.graft t).1 [c] [i] :=
      ⟨hc.grown, by rw [List.map_singleton, List.map_singleton, hid, root],
        by simpa using Instance.Embedded.bare _ bare⟩
    refine Owned.of_eq (h.append hnew) ?_
    rw [← Multiset.coe_add, Multiset.coe_singleton, add_comm, Multiset.singleton_add]
    rfl
  | @tell d instances i g g' p focus root accessors =>
    obtain ⟨is, rfl⟩ := Quot.exists_rep instances
    obtain ⟨ss, h⟩ := h.listed (i :: is) rfl
    obtain ⟨s, ss, rfl, -, -⟩ := List.map_eq_cons_iff.mp h.roots
    exact Owned.of_eq (h.tell focus root accessors) rfl
  | @write d instances i g p name ls focus get values =>
    obtain ⟨is, rfl⟩ := Quot.exists_rep instances
    obtain ⟨ss, h⟩ := h.listed (i :: is) rfl
    obtain ⟨s, ss, rfl, -, -⟩ := List.map_eq_cons_iff.mp h.roots
    exact Owned.of_eq (h.write focus get values) rfl
  | @attach d instances i g p focus t =>
    obtain ⟨is, rfl⟩ := Quot.exists_rep instances
    obtain ⟨ss, h⟩ := h.listed (i :: is) rfl
    obtain ⟨s, ss, rfl, -, -⟩ := List.map_eq_cons_iff.mp h.roots
    obtain ⟨c, hc, hid⟩ := h.grown.tidy.graft t
    have hnew := (h.attach focus hc).1
    rw [hid] at hnew
    exact Owned.of_eq hnew rfl
  | @renew d instances i g p ac a focus name anchor handles view =>
    obtain ⟨is, rfl⟩ := Quot.exists_rep instances
    obtain ⟨ss, h⟩ := h.listed (i :: (ac.children ++ is)) rfl
    obtain ⟨s, ss, rfl, -, hroots⟩ := List.map_eq_cons_iff.mp h.roots
    rw [List.map_append, List.map_eq_append_iff] at hroots
    obtain ⟨ts, ss, rfl, hts, -⟩ := hroots
    exact Owned.of_eq (h.renew name hts focus anchor rfl handles view) rfl
  | @discard d instances batch =>
    obtain ⟨is, rfl⟩ := Quot.exists_rep instances
    obtain ⟨ss, h⟩ := h.listed (batch ++ is) rfl
    have hroots := h.roots
    rw [List.map_append, List.map_eq_append_iff] at hroots
    obtain ⟨ts, ss, rfl, hts, -⟩ := hroots
    exact Owned.of_eq (h.discard hts) rfl

/-- A state is reached from another one by steps. -/
def Reaches : EngineState → EngineState → Prop := Relation.ReflTransGen fun w w' => ∃ freed, Step w freed w'

theorem Reaches.step (h : Step w freed w') : w.Reaches w' := .single ⟨freed, h⟩

theorem Reaches.add (h : w.Reaches w') (more : Multiset Instance) :
    (w.add more).Reaches (w'.add more) :=
  Relation.ReflTransGen.lift (fun w : EngineState => w.add more)
    (fun _ _ ⟨freed, hs⟩ => ⟨freed, hs.add more⟩) _ _ h

theorem Reaches.owned (h : w.Reaches w') (hw : w.Owned d₀) : w'.Owned d₀ := by
  induction h with
  | refl => exact hw
  | tail _ hs ih =>
    obtain ⟨freed, hs⟩ := hs
    exact hs.owned ih

end EngineState

end LiveMarkup
