import Overlay.Error
import Overlay.KeyPath
import Overlay.Pattern

/-!
# Merging a patch into a value

Maps merge key by key, lists append, scalars are replaced. A patch steers this by directives: a flag
or a list marker replaces a container wholesale, `$delete` removes a key or list elements, and a
list element with a selector is merged into the elements it selects. A patch that changes nothing
is an error. `normalize` prepares a patch that has nothing to be merged into: it is merged into an
empty container of its own kind.
-/

namespace Overlay.Value

def replaces (patch : Entries Value) : Bool :=
  match Entries.lookup Directive.replace patch with
  | some (.bool b) => b
  | _ => false

/-- Whether an entry of a patch is the flag of wholesale replacement, set or not. -/
def isReplaceFlag (key : String) : Value → Bool
  | .bool _ => key == Directive.replace
  | _ => false

def isReplaceMarker : Value → Bool
  | .string s => s == Directive.replace
  | .map [(k, .bool true)] => k == Directive.replace
  | _ => false

def dropRequired : List Value → List Value
  | [] => []
  | v :: rest => if v.isRequired then rest else v :: rest

/-- Removes the elements that fit the pattern of a directive, which has no other key. -/
def deleteElements (items : List Value) (directive : Entries Value) (path : String) :
    Result (List Value) :=
  let pattern := (Entries.lookup Directive.delete directive).getD .null
  match Entries.erase Directive.delete directive with
  | [] =>
    let kept := items.filter fun v => !v.fits pattern
    if kept.length = items.length then .error (.atKey (.absentElementDeleted pattern) path)
    else .ok kept
  | extra => .error (.atKey (.extraKeys Directive.delete (Entries.keys extra)) path)

def elementPatterns (directive : Entries Value) (path : String) : Result (List Value) :=
  let one := (Entries.lookup Directive.matchOne directive).toList
  match Entries.lookup Directive.matchAny directive with
  | none => .ok one
  | some (.list patterns) => .ok (one ++ patterns)
  | some v => .error (.atKey (.wrongKind Directive.matchAny "a list of patterns" v.kind) path)

/-- A directive that names its patch by a key has no other key but its selectors. -/
def checkElementPatch (directive : Entries Value) (path : String) : Result Unit :=
  if Entries.has Directive.value directive then
    match Entries.without [Directive.matchOne, Directive.matchAny, Directive.value] directive with
    | [] => .ok ()
    | extra => .error (.atKey (.extraKeys Directive.value (Entries.keys extra)) path)
  else .ok ()

def positions (items : List Value) (pattern : Value) : List Nat :=
  (List.range items.length).filter fun i => (items[i]?.getD .null).fits pattern

/-- The positions selected by any of the patterns, each once. Every pattern selects one. -/
def selected (items : List Value) (path : String) (patterns : List Value) : Result (List Nat) :=
  patterns.foldlM (fun found pattern =>
    match positions items pattern with
    | [] => .error (.atKey (.patternUnmatched pattern) path)
    | hits => .ok (found ++ hits.filter fun i => !found.contains i)) []

def updateAt (update : Value → String → Result Value) (path : String) (items : List Value)
    (places : List Nat) : Result (List Value) :=
  places.foldlM (fun items i => do
    let v ← update (items[i]?.getD .null) (KeyPath.item path i)
    return items.set i v) items

mutual
/-- Merges a patch into a value that stands at a path. -/
def merge (base : Value) : Value → String → Result Value
  | .map patch, path =>
    match base, replaces patch with
    | .map entries, false => Value.map <$> mergeEntries [] entries patch path
    | _, _ => Value.map <$> freshEntries [] patch path
  | .list patch, path =>
    match base with
    | .list items =>
      Value.list <$> mergeItems (if patch.any isReplaceMarker then [] else dropRequired items)
        patch path
    | _ => Value.list <$> mergeItems [] patch path
  | patch, path =>
    if base.isScalar && base == patch then .error (.atKey (.alreadySet base) path) else .ok patch
termination_by structural patch => patch

/-- Prepares a patch that has nothing to be merged into. -/
def normalize : Value → String → Result Value
  | .map patch, path => Value.map <$> freshEntries [] patch path
  | .list patch, path => Value.list <$> mergeItems [] patch path
  | patch, _ => .ok patch
termination_by structural patch => patch

def mergeEntries (dropped : List String) (base : Entries Value) :
    List (String × Value) → String → Result (Entries Value)
  | [], _ => .ok base
  | (k, v) :: rest, path =>
    if dropped.contains k || isReplaceFlag k v then mergeEntries dropped base rest path
    else if v.isString Directive.delete then
      if Entries.has k base then mergeEntries dropped (Entries.erase k base) rest path
      else .error (.atKey .absentKeyDeleted (KeyPath.child path k))
    else do
      let merged ←
        match Entries.lookup k base with
        | some existing => merge existing v (KeyPath.child path k)
        | none => normalize v (KeyPath.child path k)
      mergeEntries dropped (Entries.insert k merged base) rest path
termination_by structural patch => patch

def freshEntries (dropped : List String) :
    List (String × Value) → String → Result (Entries Value)
  | [], _ => .ok []
  | (k, v) :: rest, path =>
    if dropped.contains k || isReplaceFlag k v then freshEntries dropped rest path
    else if v.isString Directive.delete then
      .error (.atKey .absentKeyDeleted (KeyPath.child path k))
    else do
      let fresh ← normalize v (KeyPath.child path k)
      let others ← freshEntries dropped rest path
      return (k, fresh) :: others
termination_by structural patch => patch

def mergeItems (items : List Value) : List Value → String → Result (List Value)
  | [], _ => .ok items
  | .map patch :: rest, path =>
    if isReplaceMarker (.map patch) then mergeItems items rest path
    else if Entries.has Directive.delete patch then do
      let items ← deleteElements items patch (KeyPath.item path items.length)
      mergeItems items rest path
    else if Entries.has Directive.matchOne patch || Entries.has Directive.matchAny patch then do
      let patterns ← elementPatterns patch path
      checkElementPatch patch path
      let places ← selected items path patterns
      let items ← updateAt (fun v place =>
        match Entries.has Directive.value patch, v, replaces patch with
        | true, _, _ => mergeNamed v patch place
        | false, .map entries, false =>
          Value.map <$> mergeEntries [Directive.matchOne, Directive.matchAny] entries patch place
        | _, _, _ =>
          Value.map <$> freshEntries [Directive.matchOne, Directive.matchAny] patch place)
        path items places
      mergeItems items rest path
    else do
      let fresh ← freshEntries [] patch (KeyPath.item path items.length)
      mergeItems (items ++ [.map fresh]) rest path
  | v :: rest, path =>
    if isReplaceMarker v then mergeItems items rest path
    else do
      let fresh ← normalize v (KeyPath.item path items.length)
      mergeItems (items ++ [fresh]) rest path
termination_by structural patch => patch

def mergeNamed (base : Value) : List (String × Value) → String → Result Value
  | [], _ => .ok base
  | (k, v) :: rest, path =>
    if k = Directive.value then merge base v path else mergeNamed base rest path
termination_by structural directive => directive
end

def mergeAll (values : List Value) : Result Value :=
  values.foldlM (fun merged v => merge merged v "") .null

end Overlay.Value
