import Overlay.Toml.Number
import Overlay.Toml.Table
import Overlay.Toml.Text

/-!
# Reading TOML

A text is a row of lines: headers, which say what table follows, and entries of that table. Arrays
and inline tables nest less than 80 deep, and a key has less than 80 names.
-/

namespace Overlay.Toml

def depthLimit : Nat := 80

def readBool? (s : List Char) : Option (Value × List Char) :=
  match Text.after? "true".toList s, Text.after? "false".toList s with
  | some rest, _ => some (.bool true, rest)
  | none, some rest => some (.bool false, rest)
  | none, none => none

def readShortKey? (s : List Char) : Option (List String × String × List Char) := do
  let (path, key, rest) ← readKey? (s.length + 1) s
  if path.length + 1 < depthLimit then some (path, key, rest) else none

mutual
/-- Reads a value. Containers may nest `depth` deep; `fuel` bounds the steps. -/
def readValue? : Nat → Nat → List Char → Option (Value × List Char)
  | 0, _, _ => none
  | fuel + 1, depth, s =>
    match s with
    | '\x22' :: _ | '\x27' :: _ => (readString? s).map fun (text, rest) => (.string text, rest)
    | 't' :: _ | 'f' :: _ => readBool? s
    | '[' :: s =>
      match depth with
      | 0 => none
      | depth + 1 => (readItems? fuel depth s).map fun (items, rest) => (.list items, rest)
    | '\x7b' :: s =>
      match depth with
      | 0 => none
      | depth + 1 =>
        match skipBlanks s with
        | '\x7d' :: rest => some (.map [], rest)
        | s => (readEntries? fuel depth (.empty .header) s).map fun (t, rest) =>
          (t.item.toValue, rest)
    | s => readNumber? s

def readItems? : Nat → Nat → List Char → Option (List Value × List Char)
  | 0, _, _ => none
  | fuel + 1, depth, s =>
    match skipLines (s.length + 1) s with
    | ']' :: rest => some ([], rest)
    | s => do
      let (v, s) ← readValue? fuel depth s
      match skipLines (s.length + 1) s with
      | ']' :: rest => some ([v], rest)
      | ',' :: s =>
        let (items, rest) ← readItems? fuel depth s
        some (v :: items, rest)
      | _ => none

def readEntries? : Nat → Nat → Table → List Char → Option (Table × List Char)
  | 0, _, _, _ => none
  | fuel + 1, depth, t, s => do
    let (path, key, s) ← readShortKey? s
    match s with
    | '=' :: s =>
      let (v, s) ← readValue? fuel depth (skipBlanks s)
      let t ← t.set path key v
      match skipBlanks s with
      | '\x7d' :: rest => some (t, rest)
      | ',' :: s => readEntries? fuel depth t s
      | _ => none
    | _ => none
end

/-- What has been read of a text: the root and the path of the table that entries go to. -/
structure Reading where
  root : Table
  current : List String

def readHeader? (r : Reading) (s : List Char) : Option (Reading × List Char) :=
  match s with
  | '[' :: s => do
    let (path, key, s) ← readShortKey? s
    let s ← Text.after? [']', ']'] s
    let root ← r.root.openElement path key
    let s ← endLine? s
    some (⟨root, path ++ [key]⟩, s)
  | s => do
    let (path, key, s) ← readShortKey? s
    let s ← Text.after? [']'] s
    let root ← r.root.openTable path key
    let s ← endLine? s
    some (⟨root, path ++ [key]⟩, s)

def readEntry? (r : Reading) (s : List Char) : Option (Reading × List Char) := do
  let (path, key, s) ← readShortKey? s
  let s ← Text.after? ['='] s
  let (v, s) ← readValue? (2 * s.length + 2) (depthLimit - 1) (skipBlanks s)
  let root ← r.root.descend false (Table.set path key v) r.current
  let s ← endLine? s
  some ({ r with root }, s)

def readLines? : Nat → Reading → List Char → Option Table
  | 0, _, _ => none
  | fuel + 1, r, s =>
    match skipLines (s.length + 1) s with
    | [] => some r.root
    | '[' :: s =>
      match readHeader? r s with
      | some (r, s) => readLines? fuel r s
      | none => none
    | s =>
      match readEntry? r s with
      | some (r, s) => readLines? fuel r s
      | none => none

/-- The value of a text. A mark of the byte order may stand before it. -/
def parse? (text : String) : Option Value :=
  let s := text.toList
  let s := if s.head? = some '\uFEFF' then s.tail else s
  (readLines? (s.length + 1) ⟨.empty .header, []⟩ s).map fun t => t.item.toValue

end Overlay.Toml
