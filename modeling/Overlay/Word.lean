/-!
# Machine words

How many values a word of the machine has, and which integers fit one that has a sign.
-/

namespace Overlay.Word

def size : Nat := 18446744073709551616

/-- The least number that does not fit 64 bits with a sign. -/
def half : Nat := 9223372036854775808

def wideSize : Nat := 340282366920938463463374607431768211456

def wideHalf : Nat := 170141183460469231731687303715884105728

abbrev Fits (n : Int) : Prop :=
  -half ≤ n ∧ n < half

theorem size_eq : size = 2 * half := rfl

end Overlay.Word
