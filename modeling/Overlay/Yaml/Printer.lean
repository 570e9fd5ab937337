import Overlay.Decimal.Layout
import Overlay.Yaml.Quoting

/-!
# YAML text of a value

Maps and lists are written as blocks, two columns deeper than what holds them; a list under a key
stands at the column of the key. Empty ones are written between brackets. A key that takes several
lines or is very long has a question mark before it.
-/

namespace Overlay.Yaml

/-- YAML writes an exponent below 1e-5 and from 1e16, without a plus. -/
def floatLayout : Decimal.Layout :=
  ⟨true, some (-5, 15), true, false, ".nan", ".inf"⟩

/-- The longest key, in bytes of its text, that stands before its colon. -/
def keyLimit : Nat := 128

def closeLine (s : List Char) : List Char :=
  if s.getLast?.any isBreak then s else s ++ ['\n']

def stringText (isKey : Bool) (indent : Nat) (s : String) : List Char :=
  (ScalarStyle.of isKey s.toList).write indent s.toList

def isSimpleKey (key : String) : Bool :=
  !isMultiline key.toList && key.utf8ByteSize ≤ keyLimit

def column (n : Nat) : List Char :=
  List.replicate n ' '

def inline (indent : Nat) : Value → List Char
  | .null => "null".toList
  | .bool b => if b then "true".toList else "false".toList
  | .int n => (toString n.toInt).toList
  | .float x => (floatLayout.render x).toList
  | .string s => stringText false indent s
  | .map _ => ['\x7b', '\x7d']
  | .list _ => ['[', ']']

mutual
def block (indent : Nat) : Value → List Char
  | .map (e :: rest) => (entries indent (e :: rest)).drop indent
  | .list (v :: rest) => (items indent (v :: rest)).drop indent
  | v => closeLine (inline indent v)

/-- What stands after the colon of a key at a column, up to the end of the entry. -/
def afterColon (indent : Nat) : Value → List Char
  | .map (e :: rest) => '\n' :: entries (indent + 2) (e :: rest)
  | .list (v :: rest) => '\n' :: items indent (v :: rest)
  | v => ' ' :: closeLine (inline (indent + 2) v)

def entries (indent : Nat) : List (String × Value) → List Char
  | [] => []
  | (key, v) :: rest =>
    column indent
      ++ (if isSimpleKey key then stringText true (indent + 2) key ++ ':' :: afterColon indent v
        else
          '?' :: ' ' :: closeLine (stringText false (indent + 2) key)
            ++ column indent ++ ':' :: ' ' :: block (indent + 2) v)
      ++ entries indent rest

def items (indent : Nat) : List Value → List Char
  | [] => []
  | v :: rest => column indent ++ '-' :: ' ' :: block (indent + 2) v ++ items indent rest
end

def render (v : Value) : String :=
  String.ofList <|
    match v with
    | .string s => closeLine (stringText false 2 s)
    | v => block 0 v

end Overlay.Yaml
