import LiveMarkup.Proofs.Document.Renaming
import LiveMarkup.Proofs.Instance.Family

namespace LiveMarkup

namespace BoundLocation

def rename (f : NodeId → NodeId) (r : BoundLocation) : BoundLocation :=
  ⟨r.place.rename f, r.expression⟩

@[simp] theorem owner_rename (f : NodeId → NodeId) (r : BoundLocation) :
    (r.rename f).place.owner = f r.place.owner := by
  obtain ⟨place, _⟩ := r
  cases place <;> rfl

theorem rename_congr {f f' : NodeId → NodeId} {r : BoundLocation}
    (h : f' r.place.owner = f r.place.owner) : r.rename f' = r.rename f := by
  obtain ⟨place, expression⟩ := r
  cases place with
  | node x => exact congrArg (fun y => BoundLocation.mk (.node y) expression) h
  | «attribute» x k => exact congrArg (fun y => BoundLocation.mk (.attribute y k) expression) h

end BoundLocation

/-- What is inscribed does not depend on which node owns a place. -/
theorem Label.inscribeAll_rename (name : String) (values : Table Json) (f : NodeId → NodeId)
    (ls : List BoundLocation) (l : Label) :
    l.inscribeAll name values (ls.map (BoundLocation.rename f)) = l.inscribeAll name values ls := by
  induction ls generalizing l with
  | nil => rfl
  | cons r ls ih =>
    have hone : l.inscribe (r.rename f).place = l.inscribe r.place := by
      obtain ⟨place, _⟩ := r
      cases place <;> rfl
    rw [List.map_cons, inscribeAll, List.foldl_cons, ← inscribeAll, ih, hone]
    rfl

namespace Accessor

variable {ι κ : Type}

def rename (f : NodeId → NodeId) (g : ι → κ) : Accessor ι → Accessor κ
  | .bound ls => .bound (ls.map (BoundLocation.rename f))
  | .iterating a view cs => .iterating (f a) view (cs.map g)

theorem children_rename (f : NodeId → NodeId) (g : ι → κ) (a : Accessor ι) :
    (a.rename f g).children = a.children.map g := by
  cases a <;> rfl

theorem handles_rename (f : NodeId → NodeId) (g : ι → κ) (a : Accessor ι) :
    (a.rename f g).handles = a.handles.map f := by
  cases a with
  | bound ls =>
    rw [rename, handles, handles, List.map_map, List.map_map]
    exact List.map_congr_left fun r _ => r.owner_rename f
  | iterating a view cs => rfl

end Accessor

namespace Instance

mutual

def rename (f : NodeId → NodeId) : Instance → Instance
  | ⟨root, className, component, values, accessors, registry⟩ =>
    ⟨f root, className, component, values, renameTable f accessors, registry⟩

def renameTable (f : NodeId → NodeId) : Table (Accessor Instance) → Table (Accessor Instance)
  | ⟨entries⟩ => ⟨renameEntries f entries⟩

def renameEntries (f : NodeId → NodeId) :
    List (String × Accessor Instance) → List (String × Accessor Instance)
  | [] => []
  | e :: es => renameEntry f e :: renameEntries f es

def renameEntry (f : NodeId → NodeId) : String × Accessor Instance → String × Accessor Instance
  | (name, a) => (name, renameAccessor f a)

def renameAccessor (f : NodeId → NodeId) : Accessor Instance → Accessor Instance
  | .bound ls => .bound (ls.map (BoundLocation.rename f))
  | .iterating a view cs => .iterating (f a) view (renameAll f cs)

def renameAll (f : NodeId → NodeId) : List Instance → List Instance
  | [] => []
  | c :: cs => rename f c :: renameAll f cs

end

theorem renameAll_eq (f : NodeId → NodeId) (cs : List Instance) :
    renameAll f cs = cs.map (rename f) := by
  induction cs with
  | nil => rfl
  | cons c cs ih => rw [renameAll, ih, List.map_cons]

theorem renameAccessor_eq (f : NodeId → NodeId) (a : Accessor Instance) :
    renameAccessor f a = a.rename f (rename f) := by
  cases a with
  | bound ls => rw [renameAccessor, Accessor.rename]
  | iterating a view cs => rw [renameAccessor, Accessor.rename, renameAll_eq]

theorem renameEntries_eq (f : NodeId → NodeId) (es : List (String × Accessor Instance)) :
    renameEntries f es = es.map fun e => (e.1, e.2.rename f (rename f)) := by
  induction es with
  | nil => rfl
  | cons e es ih =>
    obtain ⟨name, a⟩ := e
    rw [renameEntries, renameEntry, renameAccessor_eq, ih, List.map_cons]

theorem rename_eq (f : NodeId → NodeId) (i : Instance) :
    i.rename f = { i with
      root := f i.root
      accessors := i.accessors.map (Accessor.rename f (rename f)) } := by
  obtain ⟨root, className, component, values, ⟨entries⟩, registry⟩ := i
  rw [rename, renameTable, renameEntries_eq, Table.map]

variable (f : NodeId → NodeId) (i : Instance) (name : String)

@[simp] theorem root_rename : (i.rename f).root = f i.root := by rw [rename_eq]

@[simp] theorem values_rename : (i.rename f).values = i.values := by rw [rename_eq]

@[simp] theorem registry_rename : (i.rename f).registry = i.registry := by rw [rename_eq]

@[simp] theorem accessors_rename :
    (i.rename f).accessors = i.accessors.map (Accessor.rename f (rename f)) := by rw [rename_eq]

@[simp] theorem names_rename : (i.rename f).accessors.names = i.accessors.names := by
  rw [accessors_rename, Table.names_map]

theorem get?_rename : (i.rename f).accessors.get? name =
    (i.accessors.get? name).map (Accessor.rename f (rename f)) := by
  rw [accessors_rename, Table.get?_map]

theorem children_rename : (i.rename f).children name = (i.children name).map (rename f) := by
  rw [children_eq, children_eq, get?_rename]
  cases i.accessors.get? name with
  | none => rfl
  | some a => exact a.children_rename f (rename f)

theorem generated_rename : (i.rename f).generated = i.generated.map (rename f) := by
  rw [generated, generated, accessors_rename, Table.map, List.flatMap_map, List.map_flatMap]
  exact List.flatMap_congr fun e _ => e.2.children_rename f (rename f)

theorem withAccessor_rename (a : Accessor Instance) :
    (i.withAccessor name a).rename f =
      (i.rename f).withAccessor name (a.rename f (rename f)) := by
  rw [rename_eq, rename_eq, withAccessor, withAccessor, Table.map_put]

theorem joined_rename (a : Accessor Instance) :
    (i.rename f).joined name (a.rename f (rename f)) = (i.joined name a).rename f (rename f) := by
  cases a with
  | iterating anchor view cs => rfl
  | bound more =>
    unfold joined
    rw [get?_rename]
    rcases i.accessors.get? name with _ | ⟨ls⟩ | ⟨anchor, view, cs⟩
    · rfl
    · simp only [Accessor.rename, Option.map_some, List.map_append]
    · rfl

theorem withValue_rename (v : Json) :
    (i.withValue name v).rename f = (i.rename f).withValue name v := by
  rw [rename_eq, rename_eq]
  rfl

theorem receive_rename (h : Hook) : (i.receive h).rename f = (i.rename f).receive h := by
  rw [rename_eq, rename_eq]
  rfl

theorem withChild_rename (place : Nat) (c : Instance) :
    (i.withChild name place c).rename f = (i.rename f).withChild name place (c.rename f) := by
  rw [withChild, withChild, get?_rename]
  rcases i.accessors.get? name with _ | ⟨ls⟩ | ⟨a, view, cs⟩
  · rfl
  · rfl
  · simp only [Option.map_some, Accessor.rename]
    rw [withAccessor_rename, Accessor.rename, List.map_set]

theorem descend?_rename (p : List (String × Nat)) :
    (i.rename f).descend? p = (i.descend? p).map (rename f) := by
  induction p generalizing i with
  | nil => rfl
  | cons q p ih =>
    obtain ⟨name, place⟩ := q
    rw [descend?, descend?, children_rename, List.getElem?_map]
    cases (i.children name)[place]? with
    | none => rfl
    | some c => exact ih c

theorem replaceAt_rename (g : Instance) (p : List (String × Nat)) :
    (i.replaceAt g p).rename f = (i.rename f).replaceAt (g.rename f) p := by
  induction p generalizing i with
  | nil => rfl
  | cons q p ih =>
    obtain ⟨name, place⟩ := q
    rw [replaceAt, replaceAt, children_rename, List.getElem?_map]
    cases (i.children name)[place]? with
    | none => rfl
    | some c =>
      simp only [Option.map_some]
      rw [withChild_rename, ih]

end Instance

end LiveMarkup
