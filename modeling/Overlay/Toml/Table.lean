import Overlay.Value.Basic

/-!
# Tables under construction

While a TOML text is read its tables are kept with the way each came to be: by a header of its own,
by a header below it, or by a dotted key. That decides what may still be added to it.
-/

namespace Overlay.Toml

inductive Origin where
  | header
  | belowHeader
  | dottedKey
deriving DecidableEq

inductive Item where
  | value (v : Value)
  | table (origin : Origin) (entries : List (String × Item))
  | tables (elements : List (List (String × Item)))

structure Table where
  origin : Origin
  entries : Entries Item

namespace Table

def empty (origin : Origin) : Table :=
  ⟨origin, []⟩

def item (t : Table) : Item :=
  .table t.origin t.entries

def alter (key : String) (f : Option Item → Option Item) (t : Table) : Option Table :=
  (f (Entries.lookup key t.entries)).map fun x => { t with entries := Entries.insert key x t.entries }

/-- Changes a table below this one, of an array of tables the last element. Tables on the way that
are missing are made; a dotted key may not pass through a table that has a header of its own. -/
def descend (dotted : Bool) (f : Table → Option Table) : List String → Table → Option Table
  | [], t => f t
  | key :: path, t =>
    t.alter key fun
      | none =>
        (descend dotted f path (empty (if dotted then .dottedKey else .belowHeader))).map item
      | some (.value _) => none
      | some (.table origin entries) =>
        if dotted && origin = .header then none
        else (descend dotted f path ⟨origin, entries⟩).map item
      | some (.tables elements) =>
        match elements.getLast? with
        | none => none
        | some last =>
          (descend dotted f path ⟨.header, last⟩).map fun t =>
            .tables (elements.dropLast ++ [t.entries])

/-- Sets a key below this table by a dotted key. The table that takes it has to come from dotted
keys as well, unless the key has no dots. -/
def set (path : List String) (key : String) (v : Value) (t : Table) : Option Table :=
  t.descend true (fun t =>
    if decide (t.origin = .dottedKey) == path.isEmpty then none
    else t.alter key fun
      | none => some (.value v)
      | some _ => none) path

def openTable (path : List String) (key : String) (root : Table) : Option Table :=
  root.descend false (fun t => t.alter key fun
    | none => some (.table .header [])
    | some (.table .belowHeader entries) => some (.table .header entries)
    | some _ => none) path

def openElement (path : List String) (key : String) (root : Table) : Option Table :=
  root.descend false (fun t => t.alter key fun
    | none => some (.tables [[]])
    | some (.tables elements) => some (.tables (elements ++ [[]]))
    | some _ => none) path

end Table

namespace Item

mutual
def toValue : Item → Value
  | .value v => v
  | .table _ entries => .map (entriesToValues entries)
  | .tables elements => .list (elementsToValues elements)

def entriesToValues : List (String × Item) → Entries Value
  | [] => []
  | (key, x) :: rest => (key, toValue x) :: entriesToValues rest

def elementsToValues : List (List (String × Item)) → List Value
  | [] => []
  | entries :: rest => .map (entriesToValues entries) :: elementsToValues rest
end

end Item

end Overlay.Toml
