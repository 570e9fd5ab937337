import Overlay.Text.Line
import Overlay.Text.Numeral
import Overlay.Value.Basic
import Overlay.Word

/-!
# Values of plain scalars

A plain scalar stands for null, a truth value or a number if it has the form of one, and for itself
if not. Digits after a leading zero are no number.
-/

namespace Overlay.Yaml

/-- What a scalar stands for, or that it is a number out of range. -/
inductive Resolved where
  | value (v : Value)
  | outOfRange

def isZeroPadded (s : List Char) : Bool :=
  let digits := match s with
    | '-' :: s | '+' :: s => s
    | s => s
  1 < digits.length && digits.head? = some '0' && digits.tail.all Text.isDigit

def magnitude? (s : List Char) : Option Nat :=
  let based (mark : String) (base : Nat) : Option Nat := do
    let digits ← Text.after? mark.toList s
    Text.readNat? base digits
  match based "0x" 16, based "0o" 8, based "0b" 2 with
  | some n, _, _ => some n
  | _, some n, _ => some n
  | _, _, some n => some n
  | _, _, _ => if isZeroPadded s then none else Text.readNat? 10 s

def integer? : List Char → Option Int
  | '+' :: s => if isZeroPadded s then none else (magnitude? s).map fun n => (n : Int)
  | '-' :: s => (magnitude? s).map fun n => -(n : Int)
  | s => (magnitude? s).map fun n => (n : Int)

/-- The value of an integer. One above the range of the machine's is a float while it fits 64 bits;
further ones are out of range up to 128 bits and beyond that no integers. -/
def ofInteger? (n : Int) : Option Resolved :=
  if Word.Fits n then some (.value (.int (Int64.ofInt n)))
  else if 0 ≤ n ∧ n < Word.size then some (.value (.float (Float.ofInt n)))
  else if -Word.wideHalf ≤ n ∧ n < Word.wideSize then some .outOfRange
  else none

/-- A decimal number as the float nearest to it: digits with at most one point among or around them,
and an exponent. -/
def decimal? (s : List Char) : Option Float :=
  let whole := s.takeWhile Text.isDigit
  let s := s.dropWhile Text.isDigit
  let (fraction, s) := match s with
    | '.' :: s => (s.takeWhile Text.isDigit, s.dropWhile Text.isDigit)
    | s => ([], s)
  let power? : Option Int := match s with
    | [] => some 0
    | 'e' :: '-' :: s | 'E' :: '-' :: s => (Text.readNat? 10 s).map fun n => -(n : Int)
    | 'e' :: '+' :: s | 'E' :: '+' :: s => (Text.readNat? 10 s).map fun n => (n : Int)
    | 'e' :: s | 'E' :: s => (Text.readNat? 10 s).map fun n => (n : Int)
    | _ => none
  if whole.isEmpty && fraction.isEmpty then none
  else
    power?.map fun (power : Int) =>
      let exponent : Int := power - fraction.length
      Float.ofScientific (Text.natOfDigits 10 (whole ++ fraction)) (exponent < 0) exponent.natAbs

def finite? (s : List Char) : Option Float := do
  let (negative, digits) := match s with
    | '-' :: s => (true, s)
    | '+' :: s => (false, s)
    | s => (false, s)
  let x ← decimal? digits
  if x.isFinite then some (if negative then -x else x) else none

def float? (s : List Char) : Option Float :=
  let text := String.ofList s
  let unsigned := match s with
    | '+' :: s => String.ofList s
    | _ => text
  if [".inf", ".Inf", ".INF"].contains unsigned then some (1.0 / 0.0)
  else if ["-.inf", "-.Inf", "-.INF"].contains text then some (-1.0 / 0.0)
  else if [".nan", ".NaN", ".NAN"].contains text then some (0.0 / 0.0)
  else finite? s

def isNullText (s : String) : Bool :=
  ["", "~", "null", "Null", "NULL"].contains s

def bool? (s : String) : Option Bool :=
  if ["true", "True", "TRUE"].contains s then some true
  else if ["false", "False", "FALSE"].contains s then some false
  else none

def number? (s : List Char) : Option Resolved :=
  match (integer? s).bind ofInteger? with
  | some r => some r
  | none => if isZeroPadded s then none else (float? s).map fun x => .value (.float x)

def resolve (s : String) : Resolved :=
  if isNullText s then .value .null
  else
    match bool? s with
    | some b => .value (.bool b)
    | none => (number? s.toList).getD (.value (.string s))

end Overlay.Yaml
