import Overlay.Yaml.Cursor
import Overlay.Yaml.Scalar

/-!
# Writing scalars

A string is written plainly where it reads back as itself, else between single quotes, else between
double quotes with escapes. A string of several lines is written as a literal block where a block
may stand.
-/

namespace Overlay.Yaml

def isPrintable (c : Char) : Bool :=
  let n := c.toNat
  n == 0x0A || (0x20 ≤ n && n ≤ 0x7E) || (0xA0 ≤ n && n != 0xFEFF && n != 0xFFFE && n != 0xFFFF)

def endsWord (c : Option Char) : Bool :=
  match c with
  | none => true
  | some c => c == ' ' || c == '\t' || c == '\x00' || isBreak c

inductive ScalarStyle where
  | plain
  | single
  | double
  | literal
deriving DecidableEq

/-- Whether a character, given its neighbours, would be taken for an indicator in a block. -/
def isIndicator (before c after : Option Char) : Bool :=
  match before, c with
  | _, none => false
  | none, some c =>
    "#,[]\x7b\x7d&*!|>\x27\x22%@\x60".toList.contains c
      || ("?:-".toList.contains c && endsWord after)
  | some _, some ':' => endsWord after
  | some _, some '#' => endsWord before
  | some _, some _ => false

def hasIndicator (before : Option Char) : List Char → Bool
  | [] => false
  | c :: s => isIndicator before (some c) s.head? || hasIndicator (some c) s

def hasNeighbours (first second : Char → Bool) : List Char → Bool
  | c :: d :: s => (first c && second d) || hasNeighbours first second (d :: s)
  | _ => false

def isMultiline (s : List Char) : Bool :=
  s.any isBreak

def needsEscapes (s : List Char) : Bool :=
  !s.all isPrintable || hasNeighbours isSpace isBreak s

def allowsPlain (s : List Char) : Bool :=
  let start := String.ofList (s.take 3)
  !(needsEscapes s || isMultiline s || start == "---" || start == "..." || hasIndicator none s
    || s.head?.any isSpace || s.getLast?.any isSpace)

def allowsSingle (s : List Char) : Bool :=
  !(needsEscapes s || hasNeighbours isBreak isSpace s)

def allowsLiteral (s : List Char) : Bool :=
  !(needsEscapes s || s.getLast?.any isSpace)

def isAmbiguous (s : List Char) : Bool :=
  match resolve (String.ofList s) with
  | .value (.string _) => isZeroPadded s
  | _ => true

def ScalarStyle.of (isKey : Bool) (s : List Char) : ScalarStyle :=
  let quoted := if allowsSingle s then ScalarStyle.single else .double
  if isKey && isMultiline s then .double
  else if s.contains '\n' then
    if allowsLiteral s && !isKey then .literal else .double
  else if isAmbiguous s || !allowsPlain s then quoted
  else .plain

def upperHex (width n : Nat) : List Char :=
  (Text.hexOfWidth width n).map Char.toUpper

def escape (c : Char) : List Char :=
  let n := c.toNat
  if n = 0x22 then ['\\', '\x22']
  else if n = 0x5C then ['\\', '\\']
  else if isPrintable c && !isBreak c then [c]
  else if n = 0 then ['\\', '0']
  else if n = 0x07 then ['\\', 'a']
  else if n = 0x08 then ['\\', 'b']
  else if n = 0x09 then ['\\', 't']
  else if n = 0x0A then ['\\', 'n']
  else if n = 0x0B then ['\\', 'v']
  else if n = 0x0C then ['\\', 'f']
  else if n = 0x0D then ['\\', 'r']
  else if n = 0x1B then ['\\', 'e']
  else if n = 0x85 then ['\\', 'N']
  else if n = 0x2028 then ['\\', 'L']
  else if n = 0x2029 then ['\\', 'P']
  else if n ≤ 0xFF then '\\' :: 'x' :: upperHex 2 n
  else if n ≤ 0xFFFF then '\\' :: 'u' :: upperHex 4 n
  else '\\' :: 'U' :: upperHex 8 n

/-- The characters of a text that may have line ends, each line indented; the first is not, unless
it starts a line. -/
def indented (write : Char → List Char) (indent : Nat) (startsLine : Bool) :
    List Char → List Char
  | [] => []
  | c :: s =>
    if isBreak c then c :: indented write indent true s
    else
      (if startsLine then List.replicate indent ' ' else []) ++ write c
        ++ indented write indent false s

/-- What stands after the bar of a literal block: its indentation if the text starts with blanks,
and what becomes of the line end at its end. -/
def blockHeader (s : List Char) : List Char :=
  let hint := if s.head?.any fun c => c == ' ' || isBreak c then ['2'] else []
  let chomping :=
    match s.reverse with
    | [] => ['-']
    | c :: before =>
      if !isBreak c then ['-'] else if before.head?.all isBreak then ['+'] else []
  hint ++ chomping

def ScalarStyle.write (style : ScalarStyle) (indent : Nat) (s : List Char) : List Char :=
  match style with
  | .plain => s
  | .single =>
    let margin := if s.getLast?.any isBreak then List.replicate indent ' ' else []
    '\x27' :: (indented (fun c => if c = '\x27' then [c, c] else [c]) indent false s ++ margin
      ++ ['\x27'])
  | .double => '\x22' :: (s.flatMap escape ++ ['\x22'])
  | .literal => '|' :: (blockHeader s ++ '\n' :: indented (fun c => [c]) indent true s)

end Overlay.Yaml
