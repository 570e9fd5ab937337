import Overlay.Json.Number

/-!
# Reading JSON

A text is one value between blanks. Containers nest at most 127 deep, of entries with one key the
last stays, and a string holds no control character and no half of a surrogate pair.
-/

namespace Overlay.Json

def skipBlanks : List Char → List Char :=
  List.dropWhile fun c => c = ' ' || c = '\n' || c = '\r' || c = '\t'

/-- A piece of a string: a character, or a 16-bit unit by its number. -/
inductive Piece where
  | char (c : Char)
  | unit (n : Nat)

def unescape? : Char → Option Char
  | '\x22' => some '\x22'
  | '\\' => some '\\'
  | '/' => some '/'
  | 'b' => some '\x08'
  | 'f' => some '\x0c'
  | 'n' => some '\n'
  | 'r' => some '\r'
  | 't' => some '\t'
  | _ => none

def readPieces? : List Char → Option (List Piece × List Char)
  | [] => none
  | '\x22' :: s => some ([], s)
  | '\\' :: 'u' :: a :: b :: c :: d :: s => do
    let n ← Text.readNat? 16 [a, b, c, d]
    let (pieces, rest) ← readPieces? s
    return (.unit n :: pieces, rest)
  | '\\' :: c :: s => do
    let c ← unescape? c
    let (pieces, rest) ← readPieces? s
    return (.char c :: pieces, rest)
  | c :: s =>
    if c.toNat < 0x20 then none
    else do
      let (pieces, rest) ← readPieces? s
      return (.char c :: pieces, rest)

/-- The characters that pieces stand for. Two halves of a surrogate pair are one character, and a
half alone is none. -/
def joinPieces? : List Piece → Option (List Char)
  | [] => some []
  | .char c :: rest => (joinPieces? rest).map (c :: ·)
  | .unit n :: .unit m :: rest =>
    if 0xD800 ≤ n ∧ n < 0xDC00 then
      if 0xDC00 ≤ m ∧ m < 0xE000 then
        (joinPieces? rest).map (Char.ofNat (0x10000 + (n - 0xD800) * 0x400 + (m - 0xDC00)) :: ·)
      else none
    else if 0xDC00 ≤ n ∧ n < 0xE000 then none
    else (joinPieces? (.unit m :: rest)).map (Char.ofNat n :: ·)
  | .unit n :: rest =>
    if 0xD800 ≤ n ∧ n < 0xE000 then none else (joinPieces? rest).map (Char.ofNat n :: ·)

def readString? (s : List Char) : Option (String × List Char) := do
  let (pieces, rest) ← readPieces? s
  let chars ← joinPieces? pieces
  return (String.ofList chars, rest)

def readWord? (word : String) (v : Value) (s : List Char) : Option (Value × List Char) :=
  if word.toList.isPrefixOf s then some (v, s.drop word.length) else none

mutual
/-- Reads a value after blanks. Containers may nest `depth` deep; `fuel` bounds the steps. -/
def readValue? : Nat → Nat → List Char → Option (Value × List Char)
  | 0, _, _ => none
  | fuel + 1, depth, s =>
    match skipBlanks s with
    | 'n' :: s => readWord? "null" .null ('n' :: s)
    | 't' :: s => readWord? "true" (.bool true) ('t' :: s)
    | 'f' :: s => readWord? "false" (.bool false) ('f' :: s)
    | '\x22' :: s => (readString? s).map fun (text, rest) => (.string text, rest)
    | '[' :: s =>
      match depth, skipBlanks s with
      | 0, _ => none
      | _, ']' :: rest => some (.list [], rest)
      | depth + 1, s => (readItems? fuel depth s).map fun (items, rest) => (.list items, rest)
    | '\x7b' :: s =>
      match depth, skipBlanks s with
      | 0, _ => none
      | _, '\x7d' :: rest => some (.map [], rest)
      | depth + 1, s =>
        (readEntries? fuel depth s).map fun (pairs, rest) => (.map (Entries.ofList pairs), rest)
    | s => readNumber? s

def readItems? : Nat → Nat → List Char → Option (List Value × List Char)
  | 0, _, _ => none
  | fuel + 1, depth, s => do
    let (v, s) ← readValue? fuel depth s
    match skipBlanks s with
    | ']' :: rest => return ([v], rest)
    | ',' :: s =>
      let (items, rest) ← readItems? fuel depth s
      return (v :: items, rest)
    | _ => none

def readEntries? : Nat → Nat → List Char → Option (List (String × Value) × List Char)
  | 0, _, _ => none
  | fuel + 1, depth, s =>
    match skipBlanks s with
    | '\x22' :: s => do
      let (key, s) ← readString? s
      match skipBlanks s with
      | ':' :: s =>
        let (v, s) ← readValue? fuel depth s
        match skipBlanks s with
        | '\x7d' :: rest => return ([(key, v)], rest)
        | ',' :: s =>
          let (pairs, rest) ← readEntries? fuel depth s
          return ((key, v) :: pairs, rest)
        | _ => none
      | _ => none
    | _ => none
end

def maxDepth : Nat := 127

def parse? (text : String) : Option Value :=
  let s := text.toList
  match readValue? (2 * s.length + 2) maxDepth s with
  | some (v, rest) => if (skipBlanks rest).isEmpty then some v else none
  | none => none

end Overlay.Json
