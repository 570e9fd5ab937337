import Overlay.Value.Plain
import Overlay.Yaml.Node
import Overlay.Yaml.Scalar
import Overlay.Yaml.Token.Scan

/-!
# Reading YAML

A text holds one document, which stands for a value. Aliases are replaced by what they name. Keys
are scalars and become text; of entries with one key the last stays. Containers nest at most 128
deep.
-/

namespace Overlay.Yaml

namespace Node

def numberAnchor (names : Entries Nat) :
    Option String → Option Nat × Entries Nat
  | none => (none, names)
  | some name => (some names.length, Entries.insert name names.length names)

mutual
/-- Numbers the anchors of a document in its order. Anchors of one name have numbers of their own,
and an alias has the number that its name has last got before it. A name that comes again gets the
number of names so far, which another name may get after it. -/
def number (names : Entries Nat) : Node String → Option (Node Nat × Entries Nat)
  | .scalar text plain tag anchor =>
    let (anchor, names) := numberAnchor names anchor
    some (.scalar text plain tag anchor, names)
  | .sequence items tag anchor => do
    let (anchor, names) := numberAnchor names anchor
    let (items, names) ← numberItems names items
    some (.sequence items tag anchor, names)
  | .mapping pairs tag anchor => do
    let (anchor, names) := numberAnchor names anchor
    let (pairs, names) ← numberPairs names pairs
    some (.mapping pairs tag anchor, names)
  | .alias name => (Entries.lookup name names).map fun n => (.alias n, names)

def numberItems (names : Entries Nat) : List (Node String) → Option (List (Node Nat) × Entries Nat)
  | [] => some ([], names)
  | item :: rest => do
    let (item, names) ← number names item
    let (rest, names) ← numberItems names rest
    some (item :: rest, names)

def numberPairs (names : Entries Nat) : List (Node String × Node String) →
    Option (List (Node Nat × Node Nat) × Entries Nat)
  | [] => some ([], names)
  | (key, v) :: rest => do
    let (key, names) ← number names key
    let (v, names) ← number names v
    let (rest, names) ← numberPairs names rest
    some ((key, v) :: rest, names)
end

mutual
def anchored : Node Nat → List (Nat × Node Nat)
  | .scalar text plain tag anchor =>
    anchor.toList.map fun n => (n, .scalar text plain tag anchor)
  | .sequence items tag anchor =>
    anchor.toList.map (fun n => (n, .sequence items tag anchor)) ++ anchoredItems items
  | .mapping pairs tag anchor =>
    anchor.toList.map (fun n => (n, .mapping pairs tag anchor)) ++ anchoredPairs pairs
  | .alias _ => []

def anchoredItems : List (Node Nat) → List (Nat × Node Nat)
  | [] => []
  | item :: rest => anchored item ++ anchoredItems rest

def anchoredPairs : List (Node Nat × Node Nat) → List (Nat × Node Nat)
  | [] => []
  | (key, v) :: rest => anchored key ++ anchored v ++ anchoredPairs rest
end

mutual
/-- How many events a node consists of: one for a scalar or alias and two for a collection. -/
def events : Node Nat → Nat
  | .sequence items _ _ => eventsOfItems items + 2
  | .mapping pairs _ _ => eventsOfPairs pairs + 2
  | _ => 1

def eventsOfItems : List (Node Nat) → Nat
  | [] => 0
  | item :: rest => events item + eventsOfItems rest

def eventsOfPairs : List (Node Nat × Node Nat) → Nat
  | [] => 0
  | (key, v) :: rest => events key + events v + eventsOfPairs rest
end

end Node

def coreTag (name : String) : String :=
  "tag:yaml.org,2002:" ++ name

def isLocalTag (tag : Option String) : Bool :=
  tag.any fun t => t.toList.head? = some '!'

/-- The value of a scalar. A core tag asks for a value of its type. -/
def scalarValue? (text : String) (plain : Bool) : Option String → Option Value
  | none =>
    if plain then
      match resolve text with
      | .value v => some v
      | .outOfRange => none
    else some (.string text)
  | some tag =>
    if tag = coreTag "bool" then (bool? text).map .bool
    else if tag = coreTag "int" then
      match (integer? text.toList).bind ofInteger? with
      | some (.value v) => some v
      | _ => none
    else if tag = coreTag "float" then (float? text.toList).map .float
    else if tag = coreTag "null" then
      if text ≠ "" ∧ isNullText text then some .null else none
    else some (.string text)

def keyText? : Value → Option String
  | .string s => some s
  | .null => some "null"
  | .map _ | .list _ => none
  | v => some v.plain

/-- What aliases stand for, and how many of them a document may follow. -/
structure Aliases where
  nodes : List (Nat × Node Nat)
  limit : Nat

def Aliases.node? (a : Aliases) (n : Nat) : Option (Node Nat) :=
  (a.nodes.reverse.lookup n)

def Aliases.follow (a : Aliases) : Node Nat → StateT Nat Option (Node Nat)
  | .alias n => do
    let followed ← get
    if a.limit ≤ followed then failure
    set (followed + 1)
    a.node? n
  | node => return node

def Aliases.value (a : Aliases) : Nat → Node Nat → StateT Nat Option Value
  | depth, node => do
    let node ← a.follow node
    match node, depth with
    | .scalar text plain tag _, _ =>
      if isLocalTag tag then failure else scalarValue? text plain tag
    | .sequence items tag _, depth + 1 =>
      if isLocalTag tag then failure
      else return .list (← items.mapM (value a depth))
    | .mapping pairs tag _, depth + 1 =>
      if isLocalTag tag then failure
      else
        let entries ← pairs.mapM fun (key, v) => do
          let key ← keyText? (← value a depth key)
          return (key, ← value a depth v)
        return .map (Entries.ofList entries)
    | _, _ => failure

def maxDepth : Nat := 128

def parse? (text : String) : Option Value := do
  let tokens ← tokens? text
  let root ← Node.document? tokens
  let (root, _) ← Node.number [] root
  let aliases : Aliases := ⟨root.anchored, 100 * root.events⟩
  let (v, _) ← (aliases.value maxDepth root).run 0
  some v

end Overlay.Yaml
