import Overlay.Text.Numeral
import Overlay.Text.Line

/-!
# Declared parents

What a document says about the layers that its file inherits from.
-/

namespace Overlay

inductive Parentage where
  | none
  | names (paths : List String)
deriving DecidableEq, Inhabited

namespace Parentage

/-- Whether a character has no shape of its own: blanks other than the common one, controls, marks
that combine with what is before them, and characters for private use. -/
def isShapeless (c : Char) : Bool :=
  [(0x00, 0x1F), (0x7F, 0xA0), (0xAD, 0xAD), (0x300, 0x36F), (0x1680, 0x1680), (0x1AB0, 0x1ACE),
    (0x1DC0, 0x1DFF), (0x2000, 0x200F), (0x2028, 0x202F), (0x205F, 0x206F), (0x20D0, 0x20F0),
    (0x3000, 0x3000), (0xE000, 0xF8FF), (0xFE00, 0xFE0F), (0xFE20, 0xFE2F), (0xFEFF, 0xFEFF),
    (0xFFF0, 0xFFFB), (0xFFFE, 0xFFFF), (0xE0000, 0x10FFFF)].any fun (low, high) =>
      low ≤ c.toNat && c.toNat ≤ high

def escape (c : Char) : List Char :=
  if c = '\x22' then ['\\', '\x22']
  else if c = '\\' then ['\\', '\\']
  else if c = '\n' then ['\\', 'n']
  else if c = '\r' then ['\\', 'r']
  else if c = '\t' then ['\\', 't']
  else if c.toNat = 0 then ['\\', '0']
  else if isShapeless c then
    '\\' :: 'u' :: '\x7b' :: (Nat.toDigits 16 c.toNat ++ ['\x7d'])
  else [c]

def quoted (s : String) : String :=
  String.ofList ('\x22' :: (s.toList.flatMap escape ++ ['\x22']))

def display : Parentage → String
  | .none => "None"
  | .names paths => "Paths([" ++ Text.joined ", " (paths.map quoted) ++ "])"

end Parentage

end Overlay
