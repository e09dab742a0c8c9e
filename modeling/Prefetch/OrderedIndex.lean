/-!
# Indexes in order of first arrival

An index maps names to values and keeps its names in the order in which they first arrived.
Changing the value of a present name leaves the name where it is.
-/

namespace Prefetch

/-- Values under names, in order. -/
structure Index (α : Type) where
  entries : List (String × α)
  deriving DecidableEq, Repr

namespace Index

variable {α : Type}

def empty : Index α := ⟨[]⟩

def keys (index : Index α) : List String := index.entries.map (·.1)

def get? (index : Index α) (key : String) : Option α := index.entries.lookup key

def contains (index : Index α) (key : String) : Bool := (index.get? key).isSome

/-- Computes the new value of a name from its old one. A new name goes to the end. -/
def alterEntries (key : String) (value : Option α → α) : List (String × α) → List (String × α)
  | [] => [(key, value none)]
  | (k, old) :: rest =>
    if k = key then (k, value (some old)) :: rest else (k, old) :: alterEntries key value rest

def alter (index : Index α) (key : String) (value : Option α → α) : Index α :=
  ⟨alterEntries key value index.entries⟩

def insert (index : Index α) (key : String) (value : α) : Index α := index.alter key fun _ => value

/-- Appends a value to the list under a name. -/
def file (index : Index (List α)) (key : String) (value : α) : Index (List α) :=
  index.alter key fun filed => filed.getD [] ++ [value]

@[simp] theorem get?_empty (key : String) : (empty : Index α).get? key = none := rfl

theorem lookup_alterEntries (key k : String) (value : Option α → α) (entries : List (String × α)) :
    (alterEntries key value entries).lookup k =
      if k = key then some (value (entries.lookup key)) else entries.lookup k := by
  induction entries with
  | nil =>
    by_cases hk : k = key
    · simp [alterEntries, hk]
    · simp [alterEntries, List.lookup_cons, hk, beq_eq_false_iff_ne.mpr hk]
  | cons entry rest ih =>
    obtain ⟨k₁, old⟩ := entry
    by_cases hk : k = k₁
    · by_cases h : k₁ = key <;> simp [alterEntries, h, hk]
    · have hne := beq_eq_false_iff_ne.mpr hk
      by_cases h : k₁ = key
      · subst h
        simp [alterEntries, List.lookup_cons, hk, hne]
      · have hne₁ := beq_eq_false_iff_ne.mpr (Ne.symm h)
        simp [alterEntries, List.lookup_cons, h, hne, hne₁, ih]

theorem get?_alter (index : Index α) (key k : String) (value : Option α → α) :
    (index.alter key value).get? k =
      if k = key then some (value (index.get? key)) else index.get? k :=
  lookup_alterEntries key k value index.entries

@[simp] theorem get?_insert (index : Index α) (key k : String) (value : α) :
    (index.insert key value).get? k = if k = key then some value else index.get? k :=
  get?_alter index key k _

@[simp] theorem get?_file (index : Index (List α)) (key k : String) (value : α) :
    (index.file key value).get? k =
      if k = key then some ((index.get? key).getD [] ++ [value]) else index.get? k :=
  get?_alter index key k _

end Index

end Prefetch
