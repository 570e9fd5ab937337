/-!
# Numerals

Numbers as digits, read and written in a given base.
-/

namespace Overlay.Text

def digitValue (c : Char) : Nat :=
  if '0' ≤ c ∧ c ≤ '9' then c.toNat - '0'.toNat
  else if 'a' ≤ c ∧ c ≤ 'f' then c.toNat - 'a'.toNat + 10
  else if 'A' ≤ c ∧ c ≤ 'F' then c.toNat - 'A'.toNat + 10
  else 16

def isDigitOf (base : Nat) (c : Char) : Bool :=
  digitValue c < base

def isDigit (c : Char) : Bool :=
  isDigitOf 10 c

def natOfDigits (base : Nat) (digits : List Char) : Nat :=
  digits.foldl (fun n c => base * n + digitValue c) 0

def readNat? (base : Nat) (s : List Char) : Option Nat :=
  if s ≠ [] ∧ s.all (isDigitOf base) then some (natOfDigits base s) else none

def readCount? : List Char → Option Nat
  | '+' :: s => readNat? 10 s
  | s => readNat? 10 s

def decimal (n : Nat) : List Char :=
  Nat.toDigits 10 n

def hexDigit (n : Nat) : Char :=
  Nat.digitChar (n % 16)

def hexOfWidth : Nat → Nat → List Char
  | 0, _ => []
  | w + 1, n => hexOfWidth w (n / 16) ++ [hexDigit n]

end Overlay.Text
