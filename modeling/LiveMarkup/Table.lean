namespace LiveMarkup

structure Table (α : Type) where
  entries : List (String × α)

namespace Table

variable {α β : Type}

def empty : Table α := ⟨[]⟩

instance : Inhabited (Table α) := ⟨empty⟩

def names (t : Table α) : List String := t.entries.map (·.1)

def get? (t : Table α) (name : String) : Option α :=
  (t.entries.find? fun e => e.1 == name).map (·.2)

def contains (t : Table α) (name : String) : Bool :=
  t.entries.any fun e => e.1 == name

/-- The entries with the value of `name` replaced where it stands, or added at the end. -/
def putEntry (name : String) (value : α) : List (String × α) → List (String × α)
  | [] => [(name, value)]
  | e :: rest => if e.1 == name then (name, value) :: rest else e :: putEntry name value rest

def put (t : Table α) (name : String) (value : α) : Table α :=
  ⟨putEntry name value t.entries⟩

def erase (t : Table α) (name : String) : Table α :=
  ⟨t.entries.eraseP fun e => e.1 == name⟩

def map (f : α → β) (t : Table α) : Table β :=
  ⟨t.entries.map fun e => (e.1, f e.2)⟩

/-- The table of the entries put one after another. -/
def ofEntries (entries : List (String × α)) : Table α :=
  entries.foldl (fun t e => t.put e.1 e.2) empty

theorem get?_put_self (t : Table α) (name : String) (value : α) :
    (t.put name value).get? name = some value := by
  obtain ⟨entries⟩ := t
  simp only [get?, put]
  induction entries with
  | nil => simp [putEntry]
  | cons e rest ih =>
    by_cases h : e.1 == name
    · simp [putEntry, h]
    · simpa [putEntry, h] using ih

theorem get?_put_of_ne (t : Table α) {name other : String} (value : α) (h : other ≠ name) :
    (t.put name value).get? other = t.get? other := by
  obtain ⟨entries⟩ := t
  have hn : (name == other) = false := by simpa using Ne.symm h
  simp only [get?, put]
  induction entries with
  | nil => simp [putEntry, hn]
  | cons e rest ih =>
    by_cases he : e.1 == name
    · have : e.1 = name := by simpa using he
      simp [putEntry, this, hn]
    · by_cases ho : e.1 == other
      · simp [putEntry, he, ho]
      · simpa [putEntry, he, ho] using ih

end Table

end LiveMarkup
