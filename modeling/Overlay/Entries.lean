/-!
# Entries of a map

A map is the list of its entries, sorted by key, each key once. Keys are compared by code points.
`insert` and `erase` keep that order, and `lookup` after them finds what one expects.
-/

namespace Overlay

/-- Entries of a map, in the order of their keys. -/
abbrev Entries (α : Type) := List (String × α)

namespace Entries

variable {α β : Type}

def lookup (key : String) : Entries α → Option α
  | [] => none
  | (k, x) :: rest => if k = key then some x else lookup key rest

def has (key : String) (entries : Entries α) : Bool :=
  (lookup key entries).isSome

def insert (key : String) (x : α) : Entries α → Entries α
  | [] => [(key, x)]
  | (k, y) :: rest =>
    if key < k then (key, x) :: (k, y) :: rest
    else if k = key then (key, x) :: rest
    else (k, y) :: insert key x rest

def erase (key : String) : Entries α → Entries α
  | [] => []
  | (k, x) :: rest => if k = key then rest else (k, x) :: erase key rest

def keys (entries : Entries α) : List String :=
  entries.map Prod.fst

def without (dropped : List String) (entries : Entries α) : Entries α :=
  entries.filter fun (k, _) => !dropped.contains k

/-- Collects pairs in any order; of two with one key the later stays. -/
def ofList (pairs : List (String × α)) : Entries α :=
  pairs.foldl (fun entries (k, x) => insert k x entries) []

/-- Keys strictly increase, so no key occurs twice. -/
def Sorted (entries : Entries α) : Prop :=
  entries.Pairwise fun a b => a.1 < b.1

@[simp] theorem lookup_nil (key : String) : lookup key ([] : Entries α) = none := rfl

@[simp] theorem lookup_insert_self (key : String) (x : α) (entries : Entries α) :
    lookup key (insert key x entries) = some x := by
  induction entries with
  | nil => simp [insert, lookup]
  | cons e rest ih =>
    obtain ⟨k, y⟩ := e
    rw [insert]
    split
    · simp [lookup]
    · split
      · simp [lookup]
      · rename_i h
        simp [lookup, h, ih]

theorem lookup_insert_ne {key other : String} (h : other ≠ key) (x : α) (entries : Entries α) :
    lookup other (insert key x entries) = lookup other entries := by
  induction entries with
  | nil => simp [insert, lookup, Ne.symm h]
  | cons e rest ih =>
    obtain ⟨k, y⟩ := e
    rw [insert]
    split
    · simp [lookup, Ne.symm h]
    · split
      · rename_i hk
        subst hk
        simp [lookup, Ne.symm h]
      · simp [lookup, ih]

theorem lookup_erase_ne {key other : String} (h : other ≠ key) (entries : Entries α) :
    lookup other (erase key entries) = lookup other entries := by
  induction entries with
  | nil => rfl
  | cons e rest ih =>
    obtain ⟨k, y⟩ := e
    rw [erase]
    split
    · rename_i hk
      subst hk
      simp [lookup, Ne.symm h]
    · simp [lookup, ih]

end Entries

end Overlay
