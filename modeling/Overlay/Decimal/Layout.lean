import Overlay.Decimal.Shortest
import Overlay.Text.Line
import Overlay.Word

/-!
# Layout of decimals

How the shortest digits of a float are set out as text is up to the format written. A `Layout`
gathers its choices and `render` carries them out.
-/

namespace Overlay.Decimal

structure Layout where
  /-- Of two equally near decimals the even one is taken, not the greater. -/
  tieToEven : Bool
  /-- The places of the leading digit at which no exponent is written; always so if there are no
  bounds. -/
  positional : Option (Int × Int)
  wholeFraction : Bool
  exponentPlus : Bool
  notANumber : String
  /-- The text of positive infinity; the negative one has a minus before it. -/
  infinity : String

def Scaled.positional (wholeFraction : Bool) (d : Scaled) : List Char :=
  let digits := Text.decimal d.digits
  let tail := if wholeFraction then ['.', '0'] else []
  if 0 ≤ d.exponent then digits ++ List.replicate d.exponent.toNat '0' ++ tail
  else
    let places := (-d.exponent).toNat
    if places < digits.length then
      digits.take (digits.length - places) ++ '.' :: digits.drop (digits.length - places)
    else '0' :: '.' :: List.replicate (places - digits.length) '0' ++ digits

def Scaled.scientific (exponentPlus : Bool) (d : Scaled) : List Char :=
  let digits := Text.decimal d.digits
  let power := d.exponent + digits.length - 1
  let mantissa :=
    match digits with
    | c :: e :: rest => c :: '.' :: e :: rest
    | one => one
  let sign := if power < 0 then ['-'] else if exponentPlus then ['+'] else []
  mantissa ++ 'e' :: sign ++ Text.decimal power.natAbs

def Layout.digits (l : Layout) (d : Scaled) : List Char :=
  let place := d.exponent + (Text.decimal d.digits).length - 1
  match l.positional with
  | some (low, high) =>
    if low ≤ place ∧ place ≤ high then d.positional l.wholeFraction
    else d.scientific l.exponentPlus
  | none => d.positional l.wholeFraction

def Layout.render (l : Layout) (x : Float) : String :=
  let negative := Word.half ≤ x.toBits.toNat
  let sign := if negative then "-" else ""
  if x.isNaN then l.notANumber
  else if x.isInf then sign ++ l.infinity
  else if x == 0 then sign ++ (if l.wholeFraction then "0.0" else "0")
  else sign ++ String.ofList (l.digits (shortest l.tieToEven x))

def plainLayout : Layout :=
  ⟨false, none, false, false, "NaN", "inf"⟩

end Overlay.Decimal
