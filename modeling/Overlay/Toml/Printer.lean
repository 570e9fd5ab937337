import Overlay.Decimal.Layout
import Overlay.Toml.Text
import Overlay.Value.Basic

/-!
# TOML text of a value

The root is a map, and null stands nowhere. The entries of a table come first, then the tables below
it, each under its header. A list of maps is an array of tables; maps inside other lists are written
inline. A header is left out for a table that holds only tables.
-/

namespace Overlay.Toml

/-- TOML never writes an exponent, and whole floats keep their point. -/
def floatLayout : Decimal.Layout :=
  ⟨false, none, true, false, "nan", "inf"⟩

def longestRow (c : Char) (s : List Char) : Nat :=
  (s.foldl (fun (longest, row) d =>
    let row := if c = d then row + 1 else 0
    (max longest row, row)) (0, 0)).1

structure Traits where
  control : Bool
  backslash : Bool
  lineFeed : Bool
  quotes : Nat
  apostrophes : Nat

def Traits.of (s : List Char) : Traits :=
  { control := s.any fun c => (c.toNat < 0x20 && c ≠ '\t' && c ≠ '\n') || c.toNat = 0x7f
    backslash := s.contains '\\'
    lineFeed := s.contains '\n'
    quotes := longestRow '\x22' s
    apostrophes := longestRow '\x27' s }

inductive Quoting where
  | bare
  | basic
  | literal
  | longBasic
  | longLiteral
deriving DecidableEq

def Traits.quoting (t : Traits) : Quoting :=
  if !t.control && !t.backslash && t.quotes = 0 && !t.lineFeed then .basic
  else if !t.control && t.apostrophes = 0 && !t.lineFeed then .literal
  else if !t.control && !t.backslash && t.quotes ≤ 2 then .longBasic
  else if !t.control && t.apostrophes ≤ 2 then .longLiteral
  else if t.lineFeed then .longBasic
  else .basic

def keyQuoting (s : List Char) : Quoting :=
  let t := Traits.of s
  if !s.isEmpty && s.all isBare then .bare
  else if !t.control && !t.backslash && t.quotes = 0 && !t.lineFeed then .basic
  else if !t.control && t.apostrophes = 0 && !t.lineFeed then .literal
  else .basic

def escape (long : Bool) (c : Char) : List Char :=
  if c = '\x08' then ['\\', 'b']
  else if c = '\t' then ['\\', 't']
  else if c = '\n' then (if long then ['\n'] else ['\\', 'n'])
  else if c = '\x0c' then ['\\', 'f']
  else if c = '\r' then ['\\', 'r']
  else if c = '\\' then ['\\', '\\']
  else if c.toNat < 0x20 || c.toNat = 0x7f then
    '\\' :: 'u' :: (Text.hexOfWidth 4 c.toNat).map Char.toUpper
  else [c]

/-- The characters of a basic string. Of a row of quotes the first few stand as they are, the next
one is escaped and starts the count anew. -/
def escaped (long : Bool) : Nat → List Char → List Char
  | _, [] => []
  | row, c :: s =>
    if c = '\x22' then
      if row < (if long then 2 else 0) then c :: escaped long (row + 1) s
      else '\\' :: c :: escaped long 0 s
    else escape long c ++ escaped long 0 s

/-- A text quoted in a given way. A line feed after the opening quotes of a text of several lines
has no meaning. -/
def quote (q : Quoting) (s : List Char) : List Char :=
  let break_ := if s.contains '\n' then ['\n'] else []
  match q with
  | .bare => s
  | .basic => '\x22' :: (escaped false 0 s ++ ['\x22'])
  | .literal => '\x27' :: (s ++ ['\x27'])
  | .longBasic => "\x22\x22\x22".toList ++ break_ ++ escaped true 0 s ++ "\x22\x22\x22".toList
  | .longLiteral => "\x27\x27\x27".toList ++ break_ ++ s ++ "\x27\x27\x27".toList

def stringText (s : String) : List Char :=
  quote (Traits.of s.toList).quoting s.toList

def keyText (key : String) : List Char :=
  quote (keyQuoting key.toList) key.toList

mutual
def inline? : Value → Option (List Char)
  | .null => none
  | .bool b => some (if b then "true".toList else "false".toList)
  | .int n => some (toString n.toInt).toList
  | .float x => some (floatLayout.render x).toList
  | .string s => some (stringText s)
  | .list items => (inlineItems? items).map fun parts =>
    '[' :: (List.intercalate [',', ' '] parts ++ [']'])
  | .map [] => some ['\x7b', '\x7d']
  | .map entries => (inlineEntries? entries).map fun parts =>
    '\x7b' :: ' ' :: (List.intercalate [',', ' '] parts ++ [' ', '\x7d'])

def inlineItems? : List Value → Option (List (List Char))
  | [] => some []
  | v :: rest => do
    let first ← inline? v
    let others ← inlineItems? rest
    some (first :: others)

def inlineEntries? : List (String × Value) → Option (List (List Char))
  | [] => some []
  | (key, v) :: rest => do
    let first ← inline? v
    let others ← inlineEntries? rest
    some ((keyText key ++ " = ".toList ++ first) :: others)
end

def isTables : Value → Bool
  | .map _ => true
  | .list items => !items.isEmpty && items.all Value.isMap
  | _ => false

structure Section where
  header : List Char
  body : List Char

def lines? : List (String × Value) → Option (List Char)
  | [] => some []
  | (key, v) :: rest => do
    let others ← lines? rest
    if isTables v then some others
    else
      let text ← inline? v
      some (keyText key ++ " = ".toList ++ text ++ '\n' :: others)

def headerText (open_ close : String) (path : List String) : List Char :=
  open_.toList ++ List.intercalate ['.'] (path.map keyText) ++ close.toList ++ ['\n']

/-- The section of a table, which a table that holds nothing but tables does without. -/
def own (path : List String) (entries : List (String × Value)) (body : List Char) : List Section :=
  if path.isEmpty then (if body.isEmpty then [] else [⟨[], body⟩])
  else if body.isEmpty && !entries.isEmpty then []
  else [⟨headerText "[" "]" path, body⟩]

mutual
def sections? (path : List String) : Value → Option (List Section)
  | .map entries => do
    let body ← lines? entries
    let below ← sectionsBelow? path entries
    some (own path entries body ++ below)
  | .list items => elements? path items
  | _ => some []

def sectionsBelow? (path : List String) : List (String × Value) → Option (List Section)
  | [] => some []
  | (key, v) :: rest => do
    let first ← if isTables v then sections? (path ++ [key]) v else some []
    let others ← sectionsBelow? path rest
    some (first ++ others)

def elements? (path : List String) : List Value → Option (List Section)
  | [] => some []
  | .map entries :: rest => do
    let body ← lines? entries
    let below ← sectionsBelow? path entries
    let others ← elements? path rest
    some (⟨headerText "[[" "]]" path, body⟩ :: below ++ others)
  | _ :: rest => elements? path rest
end

def joinSections : List Section → List Char
  | [] => []
  | s :: rest =>
    s.header ++ s.body ++ rest.flatMap fun t => '\n' :: (t.header ++ t.body)

def render? (v : Value) : Option String :=
  if v.isMap then (sections? [] v).map fun parts => String.ofList (joinSections parts)
  else none

end Overlay.Toml
