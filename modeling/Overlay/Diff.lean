import Overlay.Merge

/-!
# Difference of two values

`diff a b` is a patch that turns `a` into `b` when merged. Maps differ entry by entry. Lists differ
by deleted map elements and appended ones, where merging them gives `b`, and by a wholesale
replacement where it does not. Everything else is replaced.
-/

namespace Overlay.Value

def replaceMarker : Value :=
  .map [(Directive.replace, .bool true)]

def deletion (v : Value) : Value :=
  .map [(Directive.delete, v)]

def diffLists (a b : List Value) : List Value :=
  let removed := a.filter fun v => !b.contains v
  let added := b.filter fun v => !a.contains v
  let steps := removed.map deletion ++ added
  let reproduces :=
    match merge (.list a) (.list steps) "" with
    | .ok (.list items) => items == b
    | _ => false
  if removed.all isMap && reproduces then steps else b ++ [replaceMarker]

mutual
/-- A patch that turns the first value into the second. -/
def diff (a : Value) : Value → Value
  | .map b =>
    match a with
    | .map entries =>
      .map <| (entries.filter fun (k, _) => !Entries.has k b).foldl
        (fun patch (k, _) => Entries.insert k (.string Directive.delete) patch)
        (diffEntries entries b)
    | _ => .map b
  | .list b =>
    match a with
    | .list items => .list (diffLists items b)
    | _ => .list b
  | b => b

def diffEntries (a : Entries Value) : List (String × Value) → Entries Value
  | [] => []
  | (k, v) :: rest =>
    match Entries.lookup k a with
    | none => (k, v) :: diffEntries a rest
    | some old => if old == v then diffEntries a rest else (k, diff old v) :: diffEntries a rest
end

/-- A patch between two documents; one that is a map selects what it is merged into. -/
def diffDocument (a b : Value) : Value :=
  match diff a b with
  | .map patch => .map (Entries.insert Directive.matchOne (.map []) patch)
  | patch => patch

end Overlay.Value
