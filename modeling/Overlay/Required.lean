import Overlay.Error
import Overlay.KeyPath

/-!
# Required values

A document may mark values that a later layer has to provide. Here are the branches that lead to
such marks, the path of the first one, and the check that none is left.
-/

namespace Overlay.Value

mutual
/-- The branches of a value that lead to a required mark, if there are any. -/
def skeleton : Value → Option Value
  | .map entries =>
    match skeletonEntries entries with
    | [] => none
    | kept => some (.map kept)
  | .list items =>
    match skeletonItems items with
    | [] => none
    | kept => some (.list kept)
  | v => if v.isRequired then some v else none

def skeletonItems : List Value → List Value
  | [] => []
  | v :: rest =>
    match skeleton v with
    | some kept => kept :: skeletonItems rest
    | none => skeletonItems rest

def skeletonEntries : List (String × Value) → Entries Value
  | [] => []
  | (k, v) :: rest =>
    match skeleton v with
    | some kept => (k, kept) :: skeletonEntries rest
    | none => skeletonEntries rest
end

mutual
def firstRequired : Value → String → Option String
  | .map entries, path => firstRequiredEntry entries path
  | .list items, path => firstRequiredItem 0 items path
  | v, path => if v.isRequired then some path else none

def firstRequiredItem (position : Nat) : List Value → String → Option String
  | [], _ => none
  | v :: rest, path =>
    match firstRequired v (KeyPath.item path position) with
    | some found => some found
    | none => firstRequiredItem (position + 1) rest path

def firstRequiredEntry : List (String × Value) → String → Option String
  | [], _ => none
  | (k, v) :: rest, path =>
    match firstRequired v (KeyPath.child path k) with
    | some found => some found
    | none => firstRequiredEntry rest path
end

def validate (v : Value) : Result Unit :=
  match firstRequired v "" with
  | some path => .error (.atKey .requiredField path)
  | none => .ok ()

end Overlay.Value
