namespace DurableScript

abbrev Table (α : Type) := List (String × α)

namespace Table

variable {α : Type}

def find? (name : String) : Table α → Option α
  | [] => none
  | (key, value) :: rest => if key = name then some value else find? name rest

/-- A known name keeps its place and takes the new value; a new name goes to the end. -/
def insert (name : String) (value : α) : Table α → Table α
  | [] => [(name, value)]
  | (key, old) :: rest =>
    if key = name then (key, value) :: rest else (key, old) :: insert name value rest

def contains (name : String) (table : Table α) : Bool := (find? name table).isSome

def keys (table : Table α) : List String := table.map Prod.fst

def insertAll (table : Table α) (pairs : List (String × α)) : Table α :=
  pairs.foldl (fun table (name, value) => insert name value table) table

def ofPairs (pairs : List (String × α)) : Table α := insertAll [] pairs

def Distinct (table : Table α) : Prop := (keys table).Nodup

@[simp] theorem find?_nil (name : String) : find? name ([] : Table α) = none := rfl

@[simp] theorem insert_nil (name : String) (value : α) :
    insert name value ([] : Table α) = [(name, value)] := rfl

@[simp] theorem find?_insert_self (name : String) (value : α) (table : Table α) :
    find? name (insert name value table) = some value := by
  induction table with
  | nil => simp [find?]
  | cons entry rest ih =>
    obtain ⟨key, old⟩ := entry
    by_cases h : key = name <;> simp [insert, find?, h, ih]

theorem find?_insert_of_ne {name other : String} (h : other ≠ name) (value : α)
    (table : Table α) : find? other (insert name value table) = find? other table := by
  induction table with
  | nil => simp [find?, Ne.symm h]
  | cons entry rest ih =>
    obtain ⟨key, old⟩ := entry
    by_cases hk : key = name
    · simp [insert, find?, hk, Ne.symm h]
    · by_cases ho : key = other
      · simp [insert, find?, ho, h]
      · simp [insert, find?, hk, ho, ih]

end Table

end DurableScript
