import LiveMarkup.Proofs.Placeholder.Restoring
import LiveMarkup.Instance.Assign

namespace LiveMarkup

theorem dotParts_ne_nil (cs : List Char) : dotParts cs ≠ [] := by
  cases cs with
  | nil => simp [dotParts]
  | cons c cs =>
    rw [dotParts]
    split
    · simp
    · split <;> simp

theorem dotParts_dot (cs : List Char) : dotParts ('.' :: cs) = [] :: dotParts cs := by
  obtain ⟨part, parts, h⟩ := List.exists_cons_of_ne_nil (dotParts_ne_nil cs)
  simp [dotParts, h]

theorem dotParts_append_dot {start : List Char} (h : '.' ∉ start) (cs : List Char) :
    dotParts (start ++ '.' :: cs) = start :: dotParts cs := by
  induction start with
  | nil => exact dotParts_dot cs
  | cons c start ih =>
    rw [List.mem_cons, not_or] at h
    simp [dotParts, ih h.2, Ne.symm h.1]

theorem dotParts_of_not_mem {cs : List Char} (h : '.' ∉ cs) : dotParts cs = [cs] := by
  induction cs with
  | nil => rfl
  | cons c cs ih =>
    rw [List.mem_cons, not_or] at h
    simp [dotParts, ih h.2, Ne.symm h.1]

namespace Placeholder

theorem isDottedName_of_isName {name : String} (h : isName name.toList = true)
    (hself : name ≠ selfReference) : isDottedName name.toList = true := by
  rw [isName, Bool.or_eq_true, beq_iff_eq, String.toList_inj] at h
  exact h.resolve_left hself

end Placeholder

theorem NameList.isName {names : List String} (h : NameList names) {n : String} (hn : n ∈ names) :
    Placeholder.isName n.toList = true :=
  Placeholder.isName_of_read? (h.readable n hn [])

theorem isDottedName_of_append_dot {start cs : List Char} (hstart : '.' ∉ start)
    (h : isDottedName (start ++ '.' :: cs) = true) : isDottedName cs = true := by
  rw [isDottedName, dotParts_append_dot hstart, List.all_cons, Bool.and_eq_true] at h
  exact h.2

namespace Json

variable {members : List (String × Json)} {key name path : String} {v : Json}

theorem resolve?_of_isDottedName (h : isDottedName name.toList = true) (v : Json) :
    v.resolve? name = v.follow? (dotParts name.toList) := by
  rw [resolve?, if_neg]
  rw [Bool.or_eq_true, decide_eq_true_eq, decide_eq_true_eq]
  rintro (rfl | rfl)
  · revert h
    decide +kernel
  · revert h
    decide +kernel

theorem resolve?_member (h : isDottedName name.toList = true) (hdot : '.' ∉ name.toList) :
    (Json.object members).resolve? name = Table.get? ⟨members⟩ name := by
  rw [resolve?_of_isDottedName h, dotParts_of_not_mem hdot, follow?, step?, String.ofList_toList]
  simp [follow?]

/-- From the member on, the name is resolved as the path behind the member's own name. -/
theorem resolve?_below (h : isDottedName name.toList = true) (hkey : '.' ∉ key.toList)
    (hname : name.toList = key.toList ++ '.' :: path.toList) :
    (Json.object members).resolve? name =
      (Table.get? ⟨members⟩ key).bind fun v => v.resolve? path := by
  rw [hname] at h
  have hpath := isDottedName_of_append_dot hkey h
  rw [← hname] at h
  rw [resolve?_of_isDottedName h, hname, dotParts_append_dot hkey, follow?, step?,
    String.ofList_toList]
  exact congrArg _ (funext fun v => (resolve?_of_isDottedName hpath v).symm)

end Json

end LiveMarkup
