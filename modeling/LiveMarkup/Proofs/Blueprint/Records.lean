import LiveMarkup.Proofs.Blueprint.Part
import Mathlib.Data.List.Perm.Basic

namespace LiveMarkup

namespace Table

variable {α : Type}

theorem get?_eq_some_iff {t : Table α} (h : t.names.Nodup) {name : String} {v : α} :
    t.get? name = some v ↔ (name, v) ∈ t.entries := by
  obtain ⟨entries⟩ := t
  rw [get?, Option.map_eq_some_iff]
  constructor
  · rintro ⟨e, he, rfl⟩
    obtain rfl : e.1 = name := by simpa using List.find?_some he
    exact List.mem_of_find?_eq_some he
  · intro hmem
    refine ⟨(name, v), ?_, rfl⟩
    induction entries with
    | nil => cases hmem
    | cons e entries ih =>
      rw [names, List.map_cons, List.nodup_cons] at h
      rcases List.mem_cons.mp hmem with rfl | hmem
      · simp
      · have hne : e.1 ≠ name := fun he => h.1 (List.mem_map.mpr ⟨_, hmem, he.symm⟩)
        rw [List.find?_cons_of_neg (by simpa using hne)]
        exact ih h.2 hmem

theorem get?_eq_none_iff {t : Table α} {name : String} : t.get? name = none ↔ name ∉ t.names := by
  rw [get?, Option.map_eq_none_iff, List.find?_eq_none, names]
  constructor
  · intro h hmem
    obtain ⟨e, he, rfl⟩ := List.mem_map.mp hmem
    exact h e he (by simp)
  · intro h e he hname
    exact h (List.mem_map.mpr ⟨e, he, by simpa using hname⟩)

theorem contains_iff {t : Table α} {name : String} : t.contains name = true ↔ name ∈ t.names := by
  simp [contains, names]

end Table

theorem recordTable_append (start : Table (List BindingRecord)) (rs os : List (String × BindingRecord)) :
    recordTable start (rs ++ os) = recordTable (recordTable start rs) os :=
  List.foldl_append

theorem nodup_names_recordTable {start : Table (List BindingRecord)} (h : start.names.Nodup)
    (rs : List (String × BindingRecord)) : (recordTable start rs).names.Nodup := by
  induction rs generalizing start with
  | nil => exact h
  | cons r rs ih => exact ih (Table.nodup_names_put h _ _)

theorem mem_names_recordTable {start : Table (List BindingRecord)} {n : String}
    (rs : List (String × BindingRecord)) :
    n ∈ (recordTable start rs).names ↔ n ∈ start.names ∨ n ∈ rs.map (·.1) := by
  induction rs generalizing start with
  | nil => simp [recordTable]
  | cons r rs ih =>
    rw [recordTable, List.foldl_cons, ← recordTable, ih, Table.mem_names_put, List.map_cons,
      List.mem_cons, or_assoc]

theorem get?_recordTable (start : Table (List BindingRecord)) (n : String)
    (rs : List (String × BindingRecord)) :
    ((recordTable start rs).get? n).getD [] =
      (start.get? n).getD [] ++ (rs.filter (·.1 == n)).map (·.2) := by
  induction rs generalizing start with
  | nil => simp [recordTable]
  | cons r rs ih =>
    rw [recordTable, List.foldl_cons, ← recordTable, ih]
    by_cases hr : r.1 = n
    · subst hr
      rw [Table.get?_put_self, List.filter_cons_of_pos (by simp)]
      simp
    · rw [Table.get?_put_of_ne _ _ (Ne.symm hr), List.filter_cons_of_neg (by simpa using hr)]

theorem mem_recordTable {start : Table (List BindingRecord)} (hn : start.names.Nodup)
    (hempty : ∀ e ∈ start.entries, e.2 = []) {rs : List (String × BindingRecord)} {n : String}
    {l : List BindingRecord} (h : (n, l) ∈ (recordTable start rs).entries) :
    l = (rs.filter (·.1 == n)).map (·.2) := by
  have hget := (Table.get?_eq_some_iff (nodup_names_recordTable hn rs)).mpr h
  have hstart : (start.get? n).getD [] = [] := by
    cases hs : start.get? n with
    | none => rfl
    | some v => exact hempty _ ((Table.get?_eq_some_iff hn).mp hs)
  have hall := get?_recordTable start n rs
  rw [hget, hstart] at hall
  exact hall

/-- The records in a table, each with the name it stands under. -/
def namedRecords (t : Table (List BindingRecord)) : List (String × BindingRecord) :=
  t.entries.flatMap fun e => e.2.map (Prod.mk e.1)

theorem namedRecords_put (t : Table (List BindingRecord)) (n : String) (r : BindingRecord) :
    (namedRecords (t.put n ((t.get? n).getD [] ++ [r]))).Perm (namedRecords t ++ [(n, r)]) := by
  obtain ⟨entries⟩ := t
  simp only [namedRecords, Table.put]
  induction entries with
  | nil => exact List.Perm.refl _
  | cons e entries ih =>
    by_cases he : e.1 = n
    · have hget : ((Table.mk (e :: entries)).get? n).getD [] = e.2 := by simp [Table.get?, he]
      rw [hget, Table.putEntry, if_pos (by simpa using he), List.flatMap_cons, List.flatMap_cons,
        List.map_append, he, List.append_assoc, List.append_assoc]
      exact List.Perm.append_left _ List.perm_append_comm
    · have hget : (Table.mk (e :: entries)).get? n = (Table.mk entries).get? n := by
        simp [Table.get?, he]
      rw [hget, Table.putEntry, if_neg (by simpa using he), List.flatMap_cons, List.flatMap_cons,
        List.append_assoc]
      exact List.Perm.append_left _ ih

theorem namedRecords_recordTable (start : Table (List BindingRecord))
    (rs : List (String × BindingRecord)) :
    (namedRecords (recordTable start rs)).Perm (namedRecords start ++ rs) := by
  induction rs generalizing start with
  | nil => simp [recordTable]
  | cons r rs ih =>
    rw [recordTable, List.foldl_cons, ← recordTable]
    have hput := (namedRecords_put start r.1 r.2).append_right rs
    rw [List.append_assoc] at hput
    exact (ih _).trans hput

theorem map_namedRecords (t : Table (List BindingRecord)) :
    (namedRecords t).map (·.2) = t.entries.flatMap (·.2) := by
  rw [namedRecords, List.map_flatMap]
  refine List.flatMap_congr fun e _ => ?_
  rw [List.map_map, Function.comp_def, List.map_id']

theorem flatMap_recordTable (start : Table (List BindingRecord))
    (rs : List (String × BindingRecord)) :
    ((recordTable start rs).entries.flatMap (·.2)).Perm
      (start.entries.flatMap (·.2) ++ rs.map (·.2)) := by
  rw [← map_namedRecords, ← map_namedRecords, ← List.map_append]
  exact (namedRecords_recordTable start rs).map _

theorem regionTable_of_nodup {gs : List (String × Region Blueprint)} (h : (gs.map (·.1)).Nodup) :
    regionTable .empty gs = ⟨gs⟩ := by
  have hfold : ∀ (gs : List (String × Region Blueprint)) (t : Table (Region Blueprint)),
      (t.names ++ gs.map (·.1)).Nodup → regionTable t gs = ⟨t.entries ++ gs⟩ := by
    intro gs
    induction gs with
    | nil => exact fun t _ => by simp [regionTable]
    | cons g gs ih =>
      intro t ht
      have hnot : g.1 ∉ t.names := by
        rw [List.nodup_append] at ht
        exact fun hmem => ht.2.2 g.1 hmem g.1 (by simp) rfl
      have hnext : ((⟨t.entries ++ [(g.1, g.2)]⟩ : Table (Region Blueprint)).names ++
          gs.map (·.1)).Nodup := by
        simpa [Table.names] using ht
      rw [regionTable, List.foldl_cons, ← regionTable, Table.put_of_not_mem _ hnot, ih _ hnext,
        List.append_assoc]
      rfl
  exact hfold gs .empty (by simpa [Table.empty, Table.names] using h)

end LiveMarkup
