/-!
# Finding a pattern in a text

A pattern reads one of its occurrences at the start of a text. `Pattern.split` goes through a
text from the left and tells the occurrences, which never overlap, from the characters between
them.
-/

namespace LiveMarkup

/-- `read?` gives what an occurrence at the start of a text says, and the text after it. -/
structure Pattern (α : Type) where
  read? : List Char → Option (α × List Char)
  shorter : ∀ {cs a rest}, read? cs = some (a, rest) → rest.length < cs.length

/-- A character outside of every occurrence, or an occurrence. -/
inductive Piece (α : Type) where
  | plain (c : Char)
  | found (a : α)
deriving DecidableEq

namespace Pattern

variable {α : Type}

def split (p : Pattern α) (cs : List Char) : List (Piece α) :=
  match _ : p.read? cs with
  | some (a, rest) => .found a :: p.split rest
  | none =>
    match cs with
    | [] => []
    | c :: rest => .plain c :: p.split rest
termination_by cs.length
decreasing_by
  · exact p.shorter (by assumption)
  · exact Nat.lt_succ_self _

def occurrences (p : Pattern α) (cs : List Char) : List α :=
  (p.split cs).filterMap fun
    | .plain _ => none
    | .found a => some a

theorem split_of_read? {p : Pattern α} {cs rest : List Char} {a : α}
    (h : p.read? cs = some (a, rest)) : p.split cs = .found a :: p.split rest := by
  rw [split]
  split
  · rename_i h'
    rw [h] at h'
    cases h'
    rfl
  · rename_i h'
    rw [h] at h'
    cases h'

theorem split_cons_of_none {p : Pattern α} {c : Char} {rest : List Char}
    (h : p.read? (c :: rest) = none) : p.split (c :: rest) = .plain c :: p.split rest := by
  rw [split]
  split
  · rename_i h'
    rw [h] at h'
    cases h'
  · rfl

theorem split_nil (p : Pattern α) : p.split [] = [] := by
  rw [split]
  split
  · rename_i h
    exact absurd (p.shorter h) (by simp)
  · rfl

end Pattern

theorem length_dropWhile_le (f : Char → Bool) (cs : List Char) :
    (cs.dropWhile f).length ≤ cs.length :=
  (List.dropWhile_suffix f).length_le

end LiveMarkup
