import Overlay.Value.Basic

/-!
# Identity of values

Unlike `==`, identity tells zero from its negative and holds of every value and itself. It is
decidable, so closed statements about values can be evaluated.
-/

namespace Overlay.Value

mutual
/-- Whether two values are one and the same. -/
def same : Value → Value → Bool
  | .null, .null => true
  | .bool a, .bool b => decide (a = b)
  | .int a, .int b => decide (a = b)
  | .float a, .float b => decide (a = b)
  | .string a, .string b => decide (a = b)
  | .map a, .map b => sameEntries a b
  | .list a, .list b => sameItems a b
  | _, _ => false

def sameItems : List Value → List Value → Bool
  | [], [] => true
  | x :: xs, y :: ys => same x y && sameItems xs ys
  | _, _ => false

def sameEntries : List (String × Value) → List (String × Value) → Bool
  | [], [] => true
  | (k, x) :: xs, (l, y) :: ys => decide (k = l) && same x y && sameEntries xs ys
  | _, _ => false
end

mutual
theorem same_iff : (a b : Value) → (same a b = true ↔ a = b)
  | .null, b => by cases b <;> simp [same]
  | .bool _, b => by cases b <;> simp [same]
  | .int _, b => by cases b <;> simp [same]
  | .float _, b => by cases b <;> simp [same]
  | .string _, b => by cases b <;> simp [same]
  | .map xs, b => by
    cases b with
    | map ys => simp [same, sameEntries_iff xs ys]
    | _ => simp [same]
  | .list xs, b => by
    cases b with
    | list ys => simp [same, sameItems_iff xs ys]
    | _ => simp [same]

theorem sameItems_iff : (xs ys : List Value) → (sameItems xs ys = true ↔ xs = ys)
  | [], ys => by cases ys <;> simp [sameItems]
  | x :: xs, ys => by
    cases ys with
    | nil => simp [sameItems]
    | cons y ys => simp [sameItems, same_iff x y, sameItems_iff xs ys]

theorem sameEntries_iff : (xs ys : List (String × Value)) → (sameEntries xs ys = true ↔ xs = ys)
  | [], ys => by cases ys <;> simp [sameEntries]
  | (k, x) :: xs, ys => by
    cases ys with
    | nil => simp [sameEntries]
    | cons y ys =>
      obtain ⟨l, y⟩ := y
      simp [sameEntries, same_iff x y, sameEntries_iff xs ys, and_assoc]
end

instance : DecidableEq Value := fun a b => decidable_of_iff _ (same_iff a b)

end Overlay.Value
