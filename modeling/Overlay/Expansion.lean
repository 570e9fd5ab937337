import Overlay.Merge
import Overlay.Reference

/-!
# Expansion of references

A string or map that refers to a value gives place to it, and what comes in its place is expanded
again. How often that may happen on the way to one value is limited, so that references in a circle
end in an error. A list that stands for a single element is spliced into the list around it.
-/

namespace Overlay.Expansion

def stringReference? (s : String) : Option String :=
  match Text.after? Directive.mergeSymbol.toList s.toList with
  | some reference => some (String.ofList reference)
  | none => (Text.after? Directive.replaceSymbol.toList s.toList).map String.ofList

def substitute? (site : Site) (entries : Entries Value) (path : String) : Option (Result Value) :=
  let others := Entries.erase Directive.replace entries
  match Entries.lookup Directive.replace entries, Entries.lookup Directive.merge entries with
  | none, none | some (.bool _), none => none
  | none, some reference | some (.bool _), some reference => some do
    let base ← Reference.resolveAt site reference path
    match Entries.erase Directive.merge others, base with
    | [], base => return base
    | siblings, .map entries => (Value.map entries).merge (.map siblings) path
    | _, v => .error (.atKey (.wrongKind Directive.merge
        "a map reference when sibling keys are present" v.kind) path)
  | some reference, _ => some <|
    if others.isEmpty then Reference.resolveAt site reference path
    else .error (.atKey (.extraKeys Directive.replace (Entries.keys others)) path)

def expandAll (next : Value → String → Result Value) (path : String) :
    Nat → List Value → Result (List Value)
  | _, [] => .ok []
  | position, v :: rest => do
    let first ← next v (KeyPath.item path position)
    return first :: (← expandAll next path (position + 1) rest)

mutual
/-- Expands a value. What it gives place to is expanded by `next`. -/
def expandWith (site : Site) (next : Value → String → Result Value) :
    Value → String → Result Value
  | .string s, path =>
    match stringReference? s with
    | some reference => do next (← Reference.resolveAt site (.string reference) path) path
    | none => .ok (.string s)
  | .map entries, path =>
    match substitute? site entries path with
    | some replaced => do next (← replaced) path
    | none => Value.map <$> expandEntries site next entries path
  | .list items, path => Value.list <$> expandItems site next 0 items path
  | v, _ => .ok v

/-- Expands the entries of a map. The flag of wholesale replacement is dropped. -/
def expandEntries (site : Site) (next : Value → String → Result Value) :
    List (String × Value) → String → Result (Entries Value)
  | [], _ => .ok []
  | (k, v) :: rest, path =>
    if k = Directive.replace then expandEntries site next rest path
    else do
      let first ← expandWith site next v (KeyPath.child path k)
      return (k, first) :: (← expandEntries site next rest path)

def expandItems (site : Site) (next : Value → String → Result Value) (position : Nat) :
    List Value → String → Result (List Value)
  | [], _ => .ok []
  | v :: rest, path => do
    let expanded ← match v.soleArgument? Directive.merge with
      | some reference => do
        match ← Reference.resolveAt site reference (KeyPath.item path position) with
        | .list spliced => expandAll next path position spliced
        | target => do pure [← next target (KeyPath.item path position)]
      | none => do pure [← expandWith site next v (KeyPath.item path position)]
    return expanded ++ (← expandItems site next (position + expanded.length) rest path)
end

/-- Expands a value with a budget of substitutions. An error names the limit that the budget comes
from. -/
def expandWithin (site : Site) (limit : Nat) : Nat → Value → String → Result Value
  | 0, _, path => .error (.atKey (.recursionLimit limit) path)
  | budget + 1, v, path => expandWith site (expandWithin site limit budget) v path

def expand (site : Site) (limit : Nat) (v : Value) (path : String) : Result Value :=
  expandWithin site limit (limit + 1) v path

end Overlay.Expansion
