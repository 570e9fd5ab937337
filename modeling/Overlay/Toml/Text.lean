import Overlay.Text.Line
import Overlay.Text.Numeral

/-!
# Blanks, strings and keys of TOML

A string is basic, with escapes, or literal, without, and either kind may run over lines between
tripled quotes. A key is a row of names between dots.
-/

namespace Overlay.Toml

def isBlank (c : Char) : Bool :=
  c = ' ' || c = '\t'

def isForeign (c : Char) : Bool :=
  0x80 ≤ c.toNat

def isText (c : Char) : Bool :=
  c = '\t' || (0x20 ≤ c.toNat && c.toNat ≤ 0x7E) || isForeign c

def skipBlanks (s : List Char) : List Char :=
  s.dropWhile isBlank

def lineBreak? : List Char → Option (List Char)
  | '\n' :: s => some s
  | '\r' :: '\n' :: s => some s
  | _ => none

def skipComment : List Char → List Char
  | '#' :: s => s.dropWhile isText
  | s => s

def skipLines : Nat → List Char → List Char
  | 0, s => s
  | fuel + 1, s =>
    let s := skipComment (skipBlanks s)
    match lineBreak? s with
    | some rest => skipLines fuel rest
    | none => s

def endLine? (s : List Char) : Option (List Char) :=
  match skipComment (skipBlanks s) with
  | [] => some []
  | s => lineBreak? s

def readCode? (width : Nat) (s : List Char) : Option (Char × List Char) := do
  let digits := s.take width
  let n ← if digits.length = width then Text.readNat? 16 digits else none
  if n.isValidChar then some (Char.ofNat n, s.drop width) else none

def readEscape? : List Char → Option (Char × List Char)
  | 'b' :: s => some ('\x08', s)
  | 't' :: s => some ('\t', s)
  | 'n' :: s => some ('\n', s)
  | 'f' :: s => some ('\x0c', s)
  | 'r' :: s => some ('\r', s)
  | '\x22' :: s => some ('\x22', s)
  | '\\' :: s => some ('\\', s)
  | 'u' :: s => readCode? 4 s
  | 'U' :: s => readCode? 8 s
  | _ => none

/-- Reads a basic string after its opening quote; the characters are collected in reverse. -/
def readBasic? : Nat → List Char → List Char → Option (String × List Char)
  | 0, _, _ => none
  | fuel + 1, done, s =>
    match s with
    | '\x22' :: rest => some (String.ofList done.reverse, rest)
    | '\\' :: rest =>
      match readEscape? rest with
      | some (c, rest) => readBasic? fuel (c :: done) rest
      | none => none
    | c :: rest => if isText c then readBasic? fuel (c :: done) rest else none
    | [] => none

def readLiteral? (s : List Char) : Option (String × List Char) :=
  let chars := s.takeWhile fun c => isText c && c ≠ '\x27'
  match s.drop chars.length with
  | '\x27' :: rest => some (String.ofList chars, rest)
  | _ => none

/-- The quotes that close a string of several lines: up to two more belong to the text. -/
def closing? (quote : Char) (s : List Char) : Option (List Char × List Char) :=
  let quotes := (s.takeWhile (· = quote)).length
  if quotes < 3 then none
  else
    let inside := min (quotes - 3) 2
    some (List.replicate inside quote, s.drop (inside + 3))

def skipBreaks : List Char → List Char
  | [] => []
  | '\r' :: '\n' :: s => skipBreaks s
  | c :: s => if isBlank c || c = '\n' then skipBreaks s else c :: s

def skipContinuation? (s : List Char) : Option (List Char) :=
  (lineBreak? (skipBlanks s)).map skipBreaks

/-- Reads a string of several lines after its opening quotes, which may be followed by a break of
no meaning. -/
def readLong? (quote : Char) : Nat → List Char → List Char → Option (String × List Char)
  | 0, _, _ => none
  | fuel + 1, done, s =>
    match closing? quote s with
    | some (inside, rest) => some (String.ofList (inside ++ done).reverse, rest)
    | none =>
      match lineBreak? s, s with
      | some rest, _ => readLong? quote fuel ('\n' :: done) rest
      | none, [] => none
      | none, c :: rest =>
        if c = '\\' && quote = '\x22' then
          match skipContinuation? rest, readEscape? rest with
          | some rest, _ => readLong? quote fuel done rest
          | none, some (e, rest) => readLong? quote fuel (e :: done) rest
          | none, none => none
        else if isText c then readLong? quote fuel (c :: done) rest
        else none

def readString? (s : List Char) : Option (String × List Char) :=
  let fuel := s.length + 1
  match s with
  | '\x22' :: '\x22' :: '\x22' :: s => readLong? '\x22' fuel [] ((lineBreak? s).getD s)
  | '\x27' :: '\x27' :: '\x27' :: s => readLong? '\x27' fuel [] ((lineBreak? s).getD s)
  | '\x22' :: s => readBasic? fuel [] s
  | '\x27' :: s => readLiteral? s
  | _ => none

def isBare (c : Char) : Bool :=
  c.isAlphanum || c = '_' || c = '-'

def readName? (s : List Char) : Option (String × List Char) :=
  match s with
  | '\x22' :: s => readBasic? (s.length + 1) [] s
  | '\x27' :: s => readLiteral? s
  | s =>
    let name := s.takeWhile isBare
    if name.isEmpty then none else some (String.ofList name, s.drop name.length)

/-- Reads a key: names between dots, with blanks around them. The last name stands apart from those
that lead to it. -/
def readKey? : Nat → List Char → Option (List String × String × List Char)
  | 0, _ => none
  | fuel + 1, s => do
    let (name, rest) ← readName? (skipBlanks s)
    match skipBlanks rest with
    | '.' :: rest =>
      let (path, last, rest) ← readKey? fuel rest
      some (name :: path, last, rest)
    | rest => some ([], name, rest)

end Overlay.Toml
