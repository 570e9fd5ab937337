import Overlay.Text.Numeral
import Overlay.Value.Basic
import Overlay.Word

/-!
# Numbers and dates of TOML

Digits may be set apart by single underscores. Integers fit the machine's; a float is the one
nearest to its decimal. A date or time is kept as its text in a normal form.
-/

namespace Overlay.Toml

/-- Reads digits set apart by single underscores: their row without these, and the rest. -/
def readDigits (isDigit : Char → Bool) : List Char → List Char × List Char
  | '_' :: c :: s =>
    if isDigit c then
      let (digits, rest) := readDigits isDigit s
      (c :: digits, rest)
    else ([], '_' :: c :: s)
  | c :: s =>
    if isDigit c then
      let (digits, rest) := readDigits isDigit s
      (c :: digits, rest)
    else ([], c :: s)
  | [] => ([], [])

def readRow? (isDigit : Char → Bool) (s : List Char) : Option (List Char × List Char) :=
  if s.head?.any isDigit then some (readDigits isDigit s) else none

def readSign : List Char → Bool × List Char
  | '-' :: s => (true, s)
  | '+' :: s => (false, s)
  | s => (false, s)

def readWhole? : List Char → Option (List Char × List Char)
  | '0' :: s => some (['0'], s)
  | s => readRow? Text.isDigit s

def integer? (n : Int) : Option Value :=
  if Word.Fits n then some (.int (Int64.ofInt n)) else none

def readInteger? (s : List Char) : Option (Value × List Char) :=
  let based (base : Nat) (s : List Char) : Option (Value × List Char) := do
    let (digits, rest) ← readRow? (Text.isDigitOf base) s
    let v ← integer? (Text.natOfDigits base digits)
    some (v, rest)
  match s with
  | '0' :: 'x' :: s => based 16 s
  | '0' :: 'o' :: s => based 8 s
  | '0' :: 'b' :: s => based 2 s
  | s => do
    let (negative, s) := readSign s
    let (digits, rest) ← readWhole? s
    let n : Int := Text.natOfDigits 10 digits
    let v ← integer? (if negative then -n else n)
    some (v, rest)

def readPower? : List Char → Option (Int × List Char)
  | 'e' :: s | 'E' :: s => do
    let (negative, s) := readSign s
    let (digits, rest) ← readRow? Text.isDigit s
    let n : Int := Text.natOfDigits 10 digits
    some (if negative then -n else n, rest)
  | _ => none

/-- The float nearest to a decimal, which may be infinite only below zero. -/
def floatOf? (negative : Bool) (whole fraction : List Char) (power : Int) : Option Value :=
  let exponent : Int := power - fraction.length
  let x := Float.ofScientific (Text.natOfDigits 10 (whole ++ fraction)) (exponent < 0)
    exponent.natAbs
  if x.isInf && !negative then none else some (.float (if negative then -x else x))

def readDecimal? (s : List Char) : Option (Value × List Char) := do
  let (negative, s) := readSign s
  let (whole, s) ← readWhole? s
  match s with
  | '.' :: s =>
    let (fraction, s) ← readRow? Text.isDigit s
    match s with
    | 'e' :: _ | 'E' :: _ =>
      let (power, s) ← readPower? s
      let v ← floatOf? negative whole fraction power
      some (v, s)
    | s =>
      let v ← floatOf? negative whole fraction 0
      some (v, s)
  | s =>
    let (power, s) ← readPower? s
    let v ← floatOf? negative whole [] power
    some (v, s)

def readSpecial? (s : List Char) : Option (Value × List Char) :=
  let (negative, s) := readSign s
  match s with
  | 'i' :: 'n' :: 'f' :: s => some (.float (if negative then -1.0 / 0.0 else 1.0 / 0.0), s)
  | 'n' :: 'a' :: 'n' :: s => some (.float (0.0 / 0.0), s)
  | _ => none

def readField? (width low high : Nat) (s : List Char) : Option (Nat × List Char) := do
  let digits := s.take width
  let n ← if digits.length = width then Text.readNat? 10 digits else none
  if low ≤ n ∧ n ≤ high then some (n, s.drop width) else none

def pass? (c : Char) : List Char → Option (List Char)
  | d :: s => if c = d then some s else none
  | [] => none

def daysIn (year month : Nat) : Nat :=
  let leap := year % 4 = 0 ∧ (year % 100 ≠ 0 ∨ year % 400 = 0)
  if month = 2 then (if leap then 29 else 28)
  else if [4, 6, 9, 11].contains month then 30
  else 31

def padded (width n : Nat) : List Char :=
  let digits := Text.decimal n
  List.replicate (width - digits.length) '0' ++ digits

def readDate? (s : List Char) : Option (List Char × List Char) := do
  let (year, s) ← readField? 4 0 9999 s
  let s ← pass? '-' s
  let (month, s) ← readField? 2 1 12 s
  let s ← pass? '-' s
  let (day, s) ← readField? 2 1 (daysIn year month) s
  some (padded 4 year ++ '-' :: padded 2 month ++ '-' :: padded 2 day, s)

/-- The part of a second, nine digits at most and no zeros at the end. -/
def fractionText (digits : List Char) : List Char :=
  let kept := ((digits.take 9).reverse.dropWhile (· = '0')).reverse
  if kept.isEmpty then [] else '.' :: kept

def readTime? (s : List Char) : Option (List Char × List Char) := do
  let (hour, s) ← readField? 2 0 23 s
  let s ← pass? ':' s
  let (minute, s) ← readField? 2 0 59 s
  let s ← pass? ':' s
  let (second, s) ← readField? 2 0 60 s
  let time := padded 2 hour ++ ':' :: padded 2 minute ++ ':' :: padded 2 second
  match s with
  | '.' :: rest =>
    let digits := rest.takeWhile Text.isDigit
    if digits.isEmpty then some (time, s)
    else some (time ++ fractionText digits, rest.drop digits.length)
  | s => some (time, s)

def readOffset? : List Char → Option (List Char × List Char)
  | 'Z' :: s | 'z' :: s => some (['Z'], s)
  | c :: s => do
    let negative ← if c = '-' then some true else if c = '+' then some false else none
    let (hour, s) ← readField? 2 0 23 s
    let s ← pass? ':' s
    let (minute, s) ← readField? 2 0 59 s
    let sign := if negative ∧ (hour ≠ 0 ∨ minute ≠ 0) then '-' else '+'
    some (sign :: padded 2 hour ++ ':' :: padded 2 minute, s)
  | [] => none

def readMoment? (s : List Char) : Option (List Char × List Char) :=
  match readDate? s with
  | none => readTime? s
  | some (date, rest) =>
    let timed := match rest with
      | 'T' :: s | 't' :: s | ' ' :: s => readTime? s
      | _ => none
    match timed with
    | none => some (date, rest)
    | some (time, rest) =>
      match readOffset? rest with
      | none => some (date ++ 'T' :: time, rest)
      | some (offset, rest) => some (date ++ 'T' :: time ++ offset, rest)

/-- The key of the map that stands for a date or time. -/
def momentKey := "$__toml_private_datetime"

def readNumber? (s : List Char) : Option (Value × List Char) :=
  match readMoment? s, readDecimal? s with
  | some (text, rest), _ => some (.map [(momentKey, .string (String.ofList text))], rest)
  | none, some number => some number
  | none, none => (readSpecial? s).or (readInteger? s)

end Overlay.Toml
