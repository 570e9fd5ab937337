import Overlay.Text.Numeral
import Overlay.Value.Basic
import Overlay.Word

/-!
# JSON numbers

An integer in the range of the machine's is one; any other number is a float. A float is made of the
leading digits that fit 64 bits and a power of ten: the digits are rounded to a float, which is then
multiplied or divided by the power, rounded once more. A number too large for a float is refused.
-/

namespace Overlay.Json

/-- Appends digits to a significand as long as it stays within 64 bits, and counts
them. -/
def takeDigits (significand taken : Nat) : List Char → Nat × Nat × List Char
  | [] => (significand, taken, [])
  | c :: s =>
    let grown := 10 * significand + Text.digitValue c
    if Text.isDigit c ∧ grown < Word.size then takeDigits grown (taken + 1) s
    else (significand, taken, c :: s)

def powerOfTen (n : Nat) : Float :=
  Float.ofScientific 1 false n

/-- A float divided by a power of ten, in steps if the power is no float. -/
def divideByPower : Nat → Float → Nat → Float
  | 0, x, _ => x
  | steps + 1, x, n =>
    if n ≤ 308 then x / powerOfTen n
    else if x == 0 then x
    else divideByPower steps (x / powerOfTen 308) (n - 308)

def scale? (significand : Nat) (exponent : Int) : Option Float :=
  let x := Float.ofNat significand
  if exponent < 0 then some (divideByPower 4 x exponent.natAbs)
  else if exponent ≤ 308 then
    let y := x * powerOfTen exponent.toNat
    if y.isInf then none else some y
  else if x == 0 then some x
  else none

def signed (negative : Bool) (x : Float) : Value :=
  .float (if negative then -x else x)

def exponentLimit : Nat := 2147483648

def readExponent? (negative : Bool) (significand : Nat) (exponent : Int) (s : List Char) :
    Option (Value × List Char) :=
  let (down, s) :=
    match s with
    | '+' :: s => (false, s)
    | '-' :: s => (true, s)
    | s => (false, s)
  let digits := s.takeWhile Text.isDigit
  let rest := s.dropWhile Text.isDigit
  if digits.isEmpty then none
  else
    let n := Text.natOfDigits 10 digits
    if n < exponentLimit then
      let power : Int := if down then exponent - n else exponent + n
      (scale? significand power).map fun x => (signed negative x, rest)
    else if significand ≠ 0 ∧ !down then none
    else some (signed negative 0, rest)

def readScale? (negative : Bool) (significand : Nat) (exponent : Int) :
    List Char → Option (Value × List Char)
  | 'e' :: s | 'E' :: s => readExponent? negative significand exponent s
  | s => (scale? significand exponent).map fun x => (signed negative x, s)

/-- What follows the point of a number; digits that do not fit are dropped. -/
def readFraction? (negative : Bool) (significand : Nat) (exponent : Int) (s : List Char) :
    Option (Value × List Char) :=
  let (significand, taken, rest) := takeDigits significand 0 s
  let dropped := rest.takeWhile Text.isDigit
  if taken = 0 ∧ dropped.isEmpty then none
  else readScale? negative significand (exponent - taken) (rest.dropWhile Text.isDigit)

def integer (negative : Bool) (n : Nat) : Value :=
  if negative then
    if n ≠ 0 ∧ n ≤ Word.half then .int (Int64.ofInt (-n)) else .float (-Float.ofNat n)
  else if n < Word.half then .int (Int64.ofInt n)
  else .float (Float.ofNat n)

def readUnsigned? (negative : Bool) (s : List Char) : Option (Value × List Char) :=
  let (significand, taken, rest) := takeDigits 0 0 s
  let dropped := (rest.takeWhile Text.isDigit).length
  let leadingZero := s.head? = some '0'
  if taken = 0 ∨ (leadingZero ∧ 1 < taken) then none
  else
    match rest.dropWhile Text.isDigit with
    | '.' :: s => readFraction? negative significand dropped s
    | s =>
      if dropped = 0 ∧ s.head? ≠ some 'e' ∧ s.head? ≠ some 'E' then
        some (integer negative significand, s)
      else readScale? negative significand dropped s

def readNumber? : List Char → Option (Value × List Char)
  | '-' :: s => readUnsigned? true s
  | s => readUnsigned? false s

end Overlay.Json
