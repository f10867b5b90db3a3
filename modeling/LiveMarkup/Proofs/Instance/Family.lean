import LiveMarkup.Proofs.Instance.Layout
import LiveMarkup.Session

namespace LiveMarkup

namespace Table

variable {α : Type} {t : Table α} {name : String}

theorem exists_put (hn : t.names.Nodup) (name : String) :
    ∃ before old after, t.entries = before ++ old ++ after ∧
      (∀ v, (t.put name v).entries = before ++ (name, v) :: after) ∧
      (∀ e ∈ before ++ after, e.1 ≠ name) ∧
      old = ((t.get? name).map fun v => (name, v)).toList := by
  cases hget : t.get? name with
  | none =>
    have hnot := get?_eq_none_iff.mp hget
    refine ⟨t.entries, [], [], by simp, fun v => by rw [put_of_not_mem v hnot], ?_, rfl⟩
    intro e he hname
    rw [List.append_nil] at he
    exact hnot (hname ▸ List.mem_map_of_mem he)
  | some old =>
    obtain ⟨before, after, hentries⟩ := List.append_of_mem ((get?_eq_some_iff hn).mp hget)
    rw [names, hentries, List.map_append, List.map_cons, List.nodup_append, List.nodup_cons] at hn
    have hbefore : ∀ e ∈ before, e.1 ≠ name := fun e he =>
      hn.2.2 e.1 (List.mem_map_of_mem he) name List.mem_cons_self
    refine ⟨before, [(name, old)], after, by simp [hentries], fun v => ?_, fun e he => ?_, rfl⟩
    · rw [put, hentries]
      clear hentries hget hn
      induction before with
      | nil => simp [putEntry]
      | cons e before ih =>
        have hne : (e.1 == name) = false := by simpa using hbefore e List.mem_cons_self
        rw [List.cons_append, putEntry, hne, List.cons_append]
        simpa using ih fun e he => hbefore e (List.mem_cons_of_mem _ he)
    · rcases List.mem_append.mp he with he | he
      · exact hbefore e he
      · intro hname
        exact hn.2.1.1 (List.mem_map.mpr ⟨e, he, hname⟩)

theorem put_put (t : Table α) (name : String) (v w : α) : (t.put name v).put name w = t.put name w := by
  obtain ⟨entries⟩ := t
  rw [put, put, put, mk.injEq]
  induction entries with
  | nil => simp [putEntry]
  | cons e entries ih =>
    by_cases he : (e.1 == name) = true
    · simp [putEntry, he]
    · rw [Bool.not_eq_true] at he
      simpa [putEntry, he] using ih

end Table

namespace Accessor

variable {ι : Type}

def children : Accessor ι → List ι
  | .bound _ => []
  | .iterating _ _ cs => cs

/-- The nodes that the accessor has to do with, besides those of its children. -/
def handles : Accessor ι → List NodeId
  | .bound ls => ls.map (·.place.owner)
  | .iterating a _ _ => [a]

end Accessor

namespace Instance

variable {i g g' : Instance} {name : String} {place : Nat} {p : List (String × Nat)}

/-- The instances that are kept for the items of all iterating properties. -/
def generated (i : Instance) : List Instance := i.accessors.entries.flatMap (·.2.children)

theorem children_eq (i : Instance) (name : String) :
    i.children name = ((i.accessors.get? name).map Accessor.children).getD [] := by
  rw [children]
  rcases i.accessors.get? name with _ | ⟨ls⟩ | ⟨a, view, cs⟩ <;> rfl

theorem children_of_get? {a : Accessor Instance} (h : i.accessors.get? name = some a) :
    i.children name = a.children := by
  rw [children_eq, h]
  rfl

theorem mem_generated_of_get? {a : Accessor Instance} {c : Instance}
    (h : i.accessors.get? name = some a) (hc : c ∈ a.children) : c ∈ i.generated := by
  rw [Table.get?, Option.map_eq_some_iff] at h
  obtain ⟨e, he, rfl⟩ := h
  exact List.mem_flatMap.mpr ⟨e, List.mem_of_find?_eq_some he, hc⟩

theorem mem_generated_of_mem_children {c : Instance} (h : c ∈ i.children name) :
    c ∈ i.generated := by
  rw [children_eq] at h
  cases hget : i.accessors.get? name with
  | none => simp [hget] at h
  | some a => exact mem_generated_of_get? hget (by simpa [hget] using h)

theorem exists_get?_of_mem_children {c : Instance} (h : c ∈ i.children name) :
    ∃ a view cs, i.accessors.get? name = some (.iterating a view cs) ∧ i.children name = cs := by
  rw [children_eq] at h ⊢
  rcases hget : i.accessors.get? name with _ | ⟨ls⟩ | ⟨a, view, cs⟩
  · simp [hget] at h
  · simp [hget, Accessor.children] at h
  · exact ⟨a, view, cs, rfl, rfl⟩

theorem exists_generated_withAccessor (hn : i.accessors.names.Nodup) (name : String) :
    ∃ before after, i.generated = before ++ i.children name ++ after ∧
      (∀ a, (i.withAccessor name a).generated = before ++ a.children ++ after) ∧
      ∀ a, ∀ e ∈ (i.withAccessor name a).accessors.entries,
        e = (name, a) ∨ (e ∈ i.accessors.entries ∧ e.2.children ⊆ before ++ after) := by
  obtain ⟨before, old, after, hentries, hput, -, hold⟩ := Table.exists_put hn name
  refine ⟨before.flatMap (·.2.children), after.flatMap (·.2.children), ?_, fun a => ?_,
    fun a e he => ?_⟩
  · rw [generated, hentries, List.flatMap_append, List.flatMap_append, hold, children_eq]
    cases i.accessors.get? name <;> simp
  · rw [generated, withAccessor, hput, List.flatMap_append, List.flatMap_cons, List.append_assoc]
  · rw [withAccessor, hput, List.mem_append, List.mem_cons] at he
    rw [hentries, ← List.flatMap_append]
    rcases he with he | rfl | he
    · exact .inr ⟨by simp [he], fun c hc => List.mem_flatMap.mpr ⟨e, by simp [he], hc⟩⟩
    · exact .inl rfl
    · exact .inr ⟨by simp [he], fun c hc => List.mem_flatMap.mpr ⟨e, by simp [he], hc⟩⟩

theorem withAccessor_withAccessor (i : Instance) (name : String) (a b : Accessor Instance) :
    (i.withAccessor name a).withAccessor name b = i.withAccessor name b := by
  simp only [withAccessor, Table.put_put]

theorem withAccessor_self {a : Accessor Instance} (h : i.accessors.get? name = some a) :
    i.withAccessor name a = i := by
  obtain ⟨_, _, _, _, _, _⟩ := i
  rw [withAccessor, Table.put_of_get? h]

/-- The accessor that the instance has for a property once it gets one more. -/
def joined (i : Instance) (name : String) (a : Accessor Instance) : Accessor Instance :=
  match a, i.accessors.get? name with
  | .bound more, some (.bound locations) => .bound (locations ++ more)
  | a, _ => a

theorem joined_cases (i : Instance) (name : String) (a : Accessor Instance) :
    (∃ more locations, a = .bound more ∧ i.accessors.get? name = some (.bound locations) ∧
      i.joined name a = .bound (locations ++ more)) ∨ i.joined name a = a := by
  unfold joined
  split
  · exact .inl ⟨_, _, rfl, ‹_›, rfl⟩
  · exact .inr rfl

theorem replaceAccessor_eq (s : Stage) (i : Instance) (name : String) (a : Accessor Instance) :
    (i.replaceAccessor s name a).1.document = removeRoots s.document (i.children name) ∧
      (i.replaceAccessor s name a).2 = i.withAccessor name a := by
  rw [replaceAccessor, children]
  split <;> exact ⟨rfl, rfl⟩

theorem defineProperty_eq (s : Stage) (i : Instance) (name : String) (a : Accessor Instance) :
    (i.defineProperty s name a).1.document = removeRoots s.document (i.children name) ∧
      (i.defineProperty s name a).2 = i.withAccessor name (i.joined name a) := by
  unfold defineProperty joined
  cases a with
  | iterating anchor view cs => exact i.replaceAccessor_eq s name _
  | bound more =>
    rcases hget : i.accessors.get? name with _ | ⟨locations⟩ | ⟨anchor, view, cs⟩
    · exact i.replaceAccessor_eq s name _
    · rw [children_of_get? hget]
      exact ⟨rfl, rfl⟩
    · exact i.replaceAccessor_eq s name _

theorem children_joined {a : Accessor Instance} (h : a.children = []) :
    (i.joined name a).children = [] := by
  rcases i.joined_cases name a with ⟨_, _, -, -, hjoined⟩ | hjoined
  · rw [hjoined]
    rfl
  · rw [hjoined, h]

theorem mem_handles_joined {a : Accessor Instance} {x : NodeId}
    (h : x ∈ (i.joined name a).handles) :
    x ∈ a.handles ∨ ∃ b, i.accessors.get? name = some b ∧ x ∈ b.handles := by
  rcases i.joined_cases name a with ⟨more, locations, rfl, hget, hjoined⟩ | hjoined
  · rw [hjoined, Accessor.handles, List.map_append, List.mem_append] at h
    exact h.symm.imp_right fun h => ⟨_, hget, h⟩
  · rw [hjoined] at h
    exact .inl h

theorem eq_of_joined_eq_iterating {a : Accessor Instance} {anchor : NodeId} {view : Blueprint}
    {cs : List Instance} (h : i.joined name a = .iterating anchor view cs) :
    a = .iterating anchor view cs := by
  rcases i.joined_cases name a with ⟨_, _, -, -, hjoined⟩ | hjoined
  · rw [hjoined] at h
    cases h
  · rw [← hjoined, h]

theorem children_withChild (i : Instance) (name : String) (place : Nat) (c : Instance) :
    (i.withChild name place c).children name = (i.children name).set place c := by
  rw [withChild]
  split
  · rename_i a view cs hget
    rw [children_of_get? (Table.get?_put_self _ _ _), children_of_get? hget]
    rfl
  · rename_i hnot
    have hnone : i.children name = [] := by
      rw [List.eq_nil_iff_forall_not_mem]
      intro c hc
      obtain ⟨a, view, cs, hget, -⟩ := exists_get?_of_mem_children hc
      exact hnot _ _ _ hget
    rw [hnone, List.set_nil]

theorem withChild_withChild (i : Instance) (name : String) (place : Nat) (c c' : Instance) :
    (i.withChild name place c).withChild name place c' = i.withChild name place c' := by
  cases hget : i.accessors.get? name with
  | none => simp only [withChild, hget]
  | some a =>
    cases a with
    | bound ls => simp only [withChild, hget]
    | iterating a view cs =>
      have hfirst : i.withChild name place c =
          i.withAccessor name (.iterating a view (cs.set place c)) := by rw [withChild, hget]
      have hget' : (i.withAccessor name (.iterating a view (cs.set place c))).accessors.get? name =
          some (.iterating a view (cs.set place c)) := Table.get?_put_self _ _ _
      rw [hfirst, withChild, hget', withChild, hget]
      dsimp only
      rw [List.set_set, withAccessor_withAccessor]

theorem getElem?_children_withChild (h : (i.children name)[place]? = some g) (c : Instance) :
    ((i.withChild name place c).children name)[place]? = some c := by
  rw [children_withChild, List.getElem?_set_self]
  obtain ⟨hlt, -⟩ := List.getElem?_eq_some_iff.mp h
  exact hlt

theorem replaceAt_cons {c : Instance} (h : (i.children name)[place]? = some c) (g : Instance) :
    i.replaceAt g ((name, place) :: p) = i.withChild name place (c.replaceAt g p) := by
  rw [replaceAt, h]

theorem descend?_replaceAt (h : i.descend? p = some g) (g' : Instance) :
    (i.replaceAt g' p).descend? p = some g' := by
  induction p generalizing i with
  | nil => rfl
  | cons q p ih =>
    obtain ⟨name, place⟩ := q
    obtain ⟨c, hc, h⟩ := Option.bind_eq_some_iff.mp h
    rw [replaceAt_cons hc, descend?, getElem?_children_withChild hc, Option.bind_some]
    exact ih h

theorem replaceAt_replaceAt (h : i.descend? p = some g) (g₁ g₂ : Instance) :
    (i.replaceAt g₁ p).replaceAt g₂ p = i.replaceAt g₂ p := by
  induction p generalizing i with
  | nil => rfl
  | cons q p ih =>
    obtain ⟨name, place⟩ := q
    obtain ⟨c, hc, h⟩ := Option.bind_eq_some_iff.mp h
    rw [replaceAt_cons hc, replaceAt_cons (getElem?_children_withChild hc _), replaceAt_cons hc,
      withChild_withChild, ih h]

theorem replaceAt_self (h : i.descend? p = some g) : i.replaceAt g p = i := by
  induction p generalizing i with
  | nil => exact (Option.some.inj h).symm
  | cons q p ih =>
    obtain ⟨name, place⟩ := q
    obtain ⟨c, hc, h⟩ := Option.bind_eq_some_iff.mp h
    obtain ⟨a, view, cs, hget, hcs⟩ := exists_get?_of_mem_children (List.mem_of_getElem? hc)
    rw [hcs, List.getElem?_eq_some_iff] at hc
    obtain ⟨hlt, rfl⟩ := hc
    rw [replaceAt_cons (by rw [hcs, List.getElem?_eq_getElem hlt]), ih h, withChild, hget]
    dsimp only
    rw [List.set_getElem_self, withAccessor_self hget]

theorem root_withChild (i : Instance) (name : String) (place : Nat) (c : Instance) :
    (i.withChild name place c).root = i.root := by
  rw [withChild]
  split <;> rfl

theorem root_replaceAt (h : i.descend? p = some g) (hroot : g'.root = g.root) :
    (i.replaceAt g' p).root = i.root := by
  cases p with
  | nil =>
    obtain rfl := Option.some.inj h
    exact hroot
  | cons q p =>
    obtain ⟨name, place⟩ := q
    obtain ⟨c, hc, -⟩ := Option.bind_eq_some_iff.mp h
    rw [replaceAt_cons hc, root_withChild]

end Instance

end LiveMarkup
