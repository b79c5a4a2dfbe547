/-!
Tables from names to values in the order in which the names first came. Inserting under a name that is
there replaces its value and keeps its position.
-/

namespace Unary

structure Table (α : Type) where
  entries : List (String × α)
deriving DecidableEq

namespace Table

variable {α : Type}

def empty : Table α := ⟨[]⟩

/-- Replace the value of a name, or put the name at the end. -/
def insertEntry (name : String) (value : α) : List (String × α) → List (String × α)
  | [] => [(name, value)]
  | (key, old) :: rest =>
    if key = name then (name, value) :: rest else (key, old) :: insertEntry name value rest

def insert (t : Table α) (name : String) (value : α) : Table α :=
  ⟨insertEntry name value t.entries⟩

/-- The value of the first entry with a name. -/
def findEntry (name : String) : List (String × α) → Option α
  | [] => none
  | (key, value) :: rest => if key = name then some value else findEntry name rest

def get? (t : Table α) (name : String) : Option α :=
  findEntry name t.entries

def contains (t : Table α) (name : String) : Bool :=
  (t.get? name).isSome

def names (t : Table α) : List String :=
  t.entries.map Prod.fst

def size (t : Table α) : Nat :=
  t.entries.length

/-- The table of a list of entries, of which a later one replaces an earlier one of its name. -/
def ofList (entries : List (String × α)) : Table α :=
  entries.foldl (fun t entry => t.insert entry.1 entry.2) empty

/-- Whether two tables have the same names with the same values, in any order. -/
def sameEntries [DecidableEq α] (s t : Table α) : Bool :=
  s.size == t.size && s.entries.all fun entry => t.get? entry.1 == some entry.2

@[simp]
theorem get?_empty (name : String) : (empty : Table α).get? name = none := rfl

theorem findEntry_insertEntry (name key : String) (value : α) (entries : List (String × α)) :
    findEntry key (insertEntry name value entries) =
      if key = name then some value else findEntry key entries := by
  induction entries with
  | nil => simp [insertEntry, findEntry, eq_comm]
  | cons entry rest ih =>
    obtain ⟨first, old⟩ := entry
    by_cases hf : first = name
    · subst hf
      by_cases hk : key = first <;> simp [insertEntry, findEntry, hk, eq_comm]
    · by_cases hk : first = key
      · subst hk
        simp [insertEntry, findEntry, hf]
      · simp [insertEntry, findEntry, hf, hk, ih]

/-- A look-up after an insertion gives the new value for its name, and the old one for another name. -/
theorem get?_insert (t : Table α) (name key : String) (value : α) :
    (t.insert name value).get? key = if key = name then some value else t.get? key :=
  findEntry_insertEntry name key value t.entries

theorem map_fst_insertEntry (name : String) (value : α) (entries : List (String × α)) :
    (insertEntry name value entries).map Prod.fst =
      if name ∈ entries.map Prod.fst then entries.map Prod.fst
      else entries.map Prod.fst ++ [name] := by
  induction entries with
  | nil => rfl
  | cons entry rest ih =>
    obtain ⟨first, old⟩ := entry
    by_cases hf : first = name
    · simp [insertEntry, hf]
    · by_cases hm : name ∈ rest.map Prod.fst <;>
        simp only [insertEntry, hf, hm, if_true, if_false, List.map_cons, List.mem_cons, ih,
          Ne.symm hf, false_or, or_true, List.cons_append]

/-- An insertion keeps the order of the names, and puts a new name last. -/
theorem names_insert (t : Table α) (name : String) (value : α) :
    (t.insert name value).names = if name ∈ t.names then t.names else t.names ++ [name] :=
  map_fst_insertEntry name value t.entries

end Table

end Unary
