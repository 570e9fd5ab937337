import Overlay.Text.Numeral

/-!
# Shortest decimals

Every finite float is a ratio of naturals, and so are the midpoints to its neighbours. Between these
midpoints lie the decimals that read back as the float. `shortest` finds one of them with the fewest
digits, and of those one that is nearest to the float.
-/

namespace Overlay.Decimal

/-- A finite positive float as the exact number `significand * 2 ^ exponent`. -/
structure Dyadic where
  significand : Nat
  exponent : Int

/-- The decimal number `digits * 10 ^ exponent`. -/
structure Scaled where
  digits : Nat
  exponent : Int
deriving DecidableEq, Inhabited

/-- The weight of the leading bit of a significand, which its bits do not show. -/
def leadingBit : Nat := 4503599627370496

def Dyadic.ofBits (bits : UInt64) : Dyadic :=
  let fraction : Nat := bits.toNat % leadingBit
  let field : Nat := bits.toNat / leadingBit % 2048
  if field = 0 then ⟨fraction, -1074⟩ else ⟨leadingBit + fraction, (field : Int) - 1075⟩

/-- The numbers that round to a float, as naturals over one denominator. The ends belong to it iff
`closed`. -/
structure Cell where
  low : Nat
  mid : Nat
  high : Nat
  denominator : Nat
  closed : Bool

/-- The cell of a float. Below a power of two the neighbours stand closer. -/
def Cell.of (x : Dyadic) : Cell :=
  let scale := x.exponent - 2
  let up := Nat.pow 2 scale.toNat
  let below := if x.significand = leadingBit ∧ x.exponent ≠ -1074 then 1 else 2
  { low := (4 * x.significand - below) * up
    mid := 4 * x.significand * up
    high := (4 * x.significand + 2) * up
    denominator := Nat.pow 2 (-scale).toNat
    closed := x.significand % 2 = 0 }

def Cell.inUnits (c : Cell) (unit : Int) : Cell :=
  let up := Nat.pow 10 (-unit).toNat
  { c with
    low := c.low * up
    mid := c.mid * up
    high := c.high * up
    denominator := c.denominator * Nat.pow 10 unit.toNat }

def Cell.contains (c : Cell) (n : Nat) : Bool :=
  if c.closed then c.low ≤ n * c.denominator ∧ n * c.denominator ≤ c.high
  else c.low < n * c.denominator ∧ n * c.denominator < c.high

/-- The whole number in the cell nearest to its middle. Of two equally near ones the greater is
taken, or the even one. -/
def Cell.nearest? (tieToEven : Bool) (c : Cell) : Option Nat :=
  let n := c.mid / c.denominator
  let twice := 2 * (c.mid % c.denominator)
  match c.contains n, c.contains (n + 1) with
  | false, false => none
  | true, false => some n
  | false, true => some (n + 1)
  | true, true =>
    if twice < c.denominator then some n
    else if twice = c.denominator ∧ tieToEven ∧ n % 2 = 0 then some n
    else some (n + 1)

def leadingPlace (numerator denominator : Nat) : Int :=
  if denominator ≤ numerator then
    ((Text.decimal (numerator / denominator)).length : Int) - 1
  else
    let k := (Text.decimal (denominator / numerator)).length - 1
    if denominator ≤ numerator * Nat.pow 10 k then -(k : Int) else -(k : Int) - 1

def Scaled.normalize : Nat → Scaled → Scaled
  | 0, d => d
  | fuel + 1, d =>
    if d.digits ≠ 0 ∧ d.digits % 10 = 0 then
      normalize fuel ⟨d.digits / 10, d.exponent + 1⟩
    else d

/-- Tries one more digit until a decimal lies in the cell; seventeen always suffice. -/
def Cell.search (tieToEven : Bool) (c : Cell) (unit : Int) : Nat → Scaled
  | 0 =>
    let u := c.inUnits unit
    ⟨u.mid / u.denominator, unit⟩
  | fuel + 1 =>
    match (c.inUnits unit).nearest? tieToEven with
    | some n => ⟨n, unit⟩
    | none => search tieToEven c (unit - 1) fuel

/-- The decimal with the fewest digits that reads back as a finite float other than zero. -/
def shortest (tieToEven : Bool) (x : Float) : Scaled :=
  let c := Cell.of (Dyadic.ofBits x.toBits)
  (c.search tieToEven (leadingPlace c.mid c.denominator) 17).normalize 20

end Overlay.Decimal
