import Overlay.Value.Basic

/-!
# Structure shared by values

The intersection of two values keeps what they have in common and marks as required what both have
but differ in.
-/

namespace Overlay.Value

def requiredMark : Value :=
  .string Directive.required

mutual
def intersect : Value → Value → Value
  | .map a, b =>
    match b with
    | .map b => .map (intersectEntries a b)
    | _ => requiredMark
  | .list a, b =>
    match b with
    | .list b =>
      match a.filter fun v => b.contains v with
      | [] => .list [requiredMark]
      | kept => .list kept
    | _ => requiredMark
  | a, b => if a == b then a else requiredMark

/-- The keys of both maps. Null against another value drops the key. -/
def intersectEntries : List (String × Value) → Entries Value → Entries Value
  | [], _ => []
  | (k, a) :: rest, other =>
    match Entries.lookup k other with
    | none => intersectEntries rest other
    | some b =>
      if a.isNull && b.isNull then (k, .null) :: intersectEntries rest other
      else if a.isNull || b.isNull then intersectEntries rest other
      else (k, intersect a b) :: intersectEntries rest other
end

def intersectAll : List Value → Value
  | [] => .null
  | v :: rest => rest.foldl intersect v

end Overlay.Value
