import Overlay.Decimal.Layout
import Overlay.Value.Basic

/-!
# JSON text of a value

One printer serves the compact form and the form with one entry a line. Inside a string a quote, a
backslash and the control characters below the blank are escaped and all else stands as it is.
-/

namespace Overlay.Json

/-- JSON writes an exponent below 1e-5 and from 1e16, always with a sign. Floats that are no finite
number have no text of their own. -/
def floatLayout : Decimal.Layout :=
  ⟨true, some (-5, 15), true, true, "null", "null"⟩

def floatText (x : Float) : List Char :=
  if x.isFinite then (floatLayout.render x).toList else "null".toList

def escape (c : Char) : List Char :=
  if c = '\x22' then ['\\', '\x22']
  else if c = '\\' then ['\\', '\\']
  else if c = '\x08' then ['\\', 'b']
  else if c = '\x0c' then ['\\', 'f']
  else if c = '\n' then ['\\', 'n']
  else if c = '\r' then ['\\', 'r']
  else if c = '\t' then ['\\', 't']
  else if c.toNat < 0x20 then '\\' :: 'u' :: Text.hexOfWidth 4 c.toNat
  else [c]

def quoted (s : String) : List Char :=
  '\x22' :: (s.toList.flatMap escape ++ ['\x22'])

inductive Style where
  | compact
  | pretty
deriving DecidableEq

def Style.lineBreak : Style → Nat → List Char
  | .compact, _ => []
  | .pretty, depth => '\n' :: List.replicate (2 * depth) ' '

def Style.colon : Style → List Char
  | .compact => [':']
  | .pretty => [':', ' ']

mutual
def chars (style : Style) (depth : Nat) : Value → List Char
  | .null => "null".toList
  | .bool b => if b then "true".toList else "false".toList
  | .int n => (toString n.toInt).toList
  | .float x => floatText x
  | .string s => quoted s
  | .map [] => ['\x7b', '\x7d']
  | .map ((k, x) :: rest) =>
    '\x7b' :: (style.lineBreak (depth + 1) ++ quoted k ++ style.colon ++ chars style (depth + 1) x
      ++ charsEntries style depth rest)
  | .list [] => ['[', ']']
  | .list (x :: rest) =>
    '[' :: (style.lineBreak (depth + 1) ++ chars style (depth + 1) x ++ charsItems style depth rest)

def charsItems (style : Style) (depth : Nat) : List Value → List Char
  | [] => style.lineBreak depth ++ [']']
  | x :: rest =>
    ',' :: (style.lineBreak (depth + 1) ++ chars style (depth + 1) x ++ charsItems style depth rest)

def charsEntries (style : Style) (depth : Nat) : List (String × Value) → List Char
  | [] => style.lineBreak depth ++ ['\x7d']
  | (k, x) :: rest =>
    ',' :: (style.lineBreak (depth + 1) ++ quoted k ++ style.colon ++ chars style (depth + 1) x
      ++ charsEntries style depth rest)
end

theorem chars_list (style : Style) (depth : Nat) (x : Value) (items : List Value) :
    chars style depth (.list (x :: items)) = '[' :: (charsItems style depth (x :: items)).tail := by
  rw [chars, charsItems, List.tail_cons]

theorem chars_map (style : Style) (depth : Nat) (e : String × Value) (entries : Entries Value) :
    chars style depth (.map (e :: entries)) =
      '\x7b' :: (charsEntries style depth (e :: entries)).tail := by
  rw [chars, charsEntries, List.tail_cons]

def compact (v : Value) : String :=
  String.ofList (chars .compact 0 v)

def pretty (v : Value) : String :=
  String.ofList (chars .pretty 0 v)

end Overlay.Json
