/-! Finite tables from names to values. A name occurs at most once if every entry was made by
`insert`, and entries keep the order in which their names were first inserted. -/

namespace DataParallel

structure Table (α : Type) where
  entries : List (String × α)
deriving DecidableEq, Repr

namespace Table

variable {α : Type}

def empty : Table α := ⟨[]⟩

instance : EmptyCollection (Table α) := ⟨empty⟩
instance : Inhabited (Table α) := ⟨empty⟩

def get? (table : Table α) (key : String) : Option α := table.entries.lookup key

def contains (table : Table α) (key : String) : Bool := (table.get? key).isSome

/-- Replaces the value of a name in a list of entries, or adds the name at the end. -/
def put (key : String) (value : α) : List (String × α) → List (String × α)
  | [] => [(key, value)]
  | (name, old) :: rest =>
    if name = key then (key, value) :: rest else (name, old) :: put key value rest

/-- Gives a name a value; an earlier value is forgotten. -/
def insert (table : Table α) (key : String) (value : α) : Table α := ⟨put key value table.entries⟩

def erase (table : Table α) (key : String) : Table α :=
  ⟨table.entries.filter fun entry => entry.1 ≠ key⟩

def eraseAll (table : Table α) (keys : List String) : Table α :=
  keys.foldl erase table

def keys (table : Table α) : List String := table.entries.map Prod.fst

def size (table : Table α) : Nat := table.entries.length

def ofList (entries : List (String × α)) : Table α :=
  entries.foldl (fun table entry => table.insert entry.1 entry.2) empty

@[simp] theorem get?_empty (key : String) : (empty : Table α).get? key = none := rfl

theorem lookup_put (key other : String) (value : α) (entries : List (String × α)) :
    (put key value entries).lookup other =
      if other = key then some value else entries.lookup other := by
  induction entries with
  | nil =>
    by_cases h : other = key
    · simp [put, h]
    · have hb : (other == key) = false := by simpa using h
      simp [put, List.lookup_cons, List.lookup_nil, h, hb]
  | cons entry rest ih =>
    obtain ⟨name, old⟩ := entry
    by_cases hn : name = key
    · subst hn
      by_cases h : other = name
      · simp [put, h]
      · have hb : (other == name) = false := by simpa using h
        simp [put, List.lookup_cons, h, hb]
    · simp only [put, hn, if_false, List.lookup_cons]
      by_cases h : other = name
      · subst h
        simp [hn]
      · have hb : (other == name) = false := by simpa using h
        simp only [hb, ih]

@[simp] theorem get?_insert (table : Table α) (key other : String) (value : α) :
    (table.insert key value).get? other = if other = key then some value else table.get? other :=
  lookup_put key other value table.entries

theorem get?_erase (table : Table α) (key other : String) :
    (table.erase key).get? other = if other = key then none else table.get? other := by
  obtain ⟨entries⟩ := table
  simp only [erase, get?]
  induction entries with
  | nil => simp
  | cons entry rest ih =>
    obtain ⟨name, value⟩ := entry
    by_cases hn : name = key
    · subst hn
      rw [List.filter_cons_of_neg (by simp), ih]
      by_cases h : other = name
      · simp [h]
      · have hb : (other == name) = false := by simpa using h
        simp [List.lookup_cons, h, hb]
    · rw [List.filter_cons_of_pos (by simp [hn])]
      by_cases h : other = name
      · subst h
        simp [hn]
      · have hb : (other == name) = false := by simpa using h
        simp only [List.lookup_cons, hb, ih]

theorem get?_eraseAll (table : Table α) (keys : List String) (other : String) :
    (table.eraseAll keys).get? other = if other ∈ keys then none else table.get? other := by
  induction keys generalizing table with
  | nil => simp [eraseAll]
  | cons key keys ih =>
    rw [eraseAll, List.foldl_cons, ← eraseAll, ih, get?_erase]
    by_cases hkey : other = key
    · simp [hkey]
    · simp [hkey]

end Table
end DataParallel
