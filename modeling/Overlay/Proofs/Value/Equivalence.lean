import Overlay.Proofs.Value.Number

/-!
# Equality as a relation

`==` is symmetric and transitive. So it is an equivalence on values in which all floats are numbers.
-/

namespace Overlay

namespace Number

theorem beq_symm {x y : Float} (h : (x == y) = true) : (y == x) = true := by
  have h : x.toModel.unpack.beq y.toModel.unpack = true := h
  show y.toModel.unpack.beq x.toModel.unpack = true
  obtain ⟨-, heq | ⟨⟨s, hs⟩, t, ht⟩⟩ := beq_cases h
  · rw [heq] at h ⊢
    exact h
  · rw [hs, ht]
    rfl

theorem beq_trans {x y z : Float} (hxy : (x == y) = true) (hyz : (y == z) = true) :
    (x == z) = true := by
  have hxy : x.toModel.unpack.beq y.toModel.unpack = true := hxy
  have hyz : y.toModel.unpack.beq z.toModel.unpack = true := hyz
  show x.toModel.unpack.beq z.toModel.unpack = true
  obtain ⟨-, heq | ⟨⟨s, hs⟩, t, ht⟩⟩ := beq_cases hxy
  · rwa [heq]
  · obtain ⟨-, heq | ⟨-, u, hu⟩⟩ := beq_cases hyz
    · rwa [← heq]
    · rw [hs, hu]
      rfl

end Number

namespace Value

mutual
theorem equal_symm : (v : Value) → {w : Value} → equal v w = true → equal w v = true
  | .float x, w, h => by
    cases w with
    | float y => exact Number.beq_symm h
    | _ => cases h
  | .map xs, w, h => by
    cases w with
    | map ys => exact equalEntries_symm xs h
    | _ => cases h
  | .list xs, w, h => by
    cases w with
    | list ys => exact equalItems_symm xs h
    | _ => cases h
  | .null, w, h | .bool _, w, h | .int _, w, h | .string _, w, h => by
    cases w <;> simp_all [equal]

theorem equalItems_symm : (xs : List Value) → {ys : List Value} → equalItems xs ys = true →
    equalItems ys xs = true
  | [], [], _ => rfl
  | x :: xs, y :: ys, h => by
    simp only [equalItems, Bool.and_eq_true] at h ⊢
    exact ⟨equal_symm x h.1, equalItems_symm xs h.2⟩

theorem equalEntries_symm : (xs : List (String × Value)) → {ys : List (String × Value)} →
    equalEntries xs ys = true → equalEntries ys xs = true
  | [], [], _ => rfl
  | (k, x) :: xs, (l, y) :: ys, h => by
    simp only [equalEntries, Bool.and_eq_true] at h ⊢
    obtain ⟨⟨hkey, hvalue⟩, hrest⟩ := h
    exact ⟨⟨BEq.symm hkey, equal_symm x hvalue⟩, equalEntries_symm xs hrest⟩
end

mutual
theorem equal_trans : (u : Value) → {v w : Value} → equal u v = true → equal v w = true →
    equal u w = true
  | .float x, v, w, huv, hvw => by
    cases v with
    | float y =>
      cases w with
      | float z => exact Number.beq_trans huv hvw
      | _ => cases hvw
    | _ => cases huv
  | .map xs, v, w, huv, hvw => by
    cases v with
    | map ys =>
      cases w with
      | map zs => exact equalEntries_trans xs huv hvw
      | _ => cases hvw
    | _ => cases huv
  | .list xs, v, w, huv, hvw => by
    cases v with
    | list ys =>
      cases w with
      | list zs => exact equalItems_trans xs huv hvw
      | _ => cases hvw
    | _ => cases huv
  | .null, v, w, huv, hvw => by
    cases v with
    | null => exact hvw
    | _ => cases huv
  | .bool a, v, w, huv, hvw => by
    cases v with
    | bool b =>
      obtain rfl : a = b := eq_of_beq huv
      exact hvw
    | _ => cases huv
  | .int m, v, w, huv, hvw => by
    cases v with
    | int n =>
      obtain rfl : m = n := eq_of_beq huv
      exact hvw
    | _ => cases huv
  | .string s, v, w, huv, hvw => by
    cases v with
    | string t =>
      obtain rfl : s = t := eq_of_beq huv
      exact hvw
    | _ => cases huv

theorem equalItems_trans : (xs : List Value) → {ys zs : List Value} → equalItems xs ys = true →
    equalItems ys zs = true → equalItems xs zs = true
  | [], [], [], _, _ => rfl
  | x :: xs, y :: ys, z :: zs, hxy, hyz => by
    simp only [equalItems, Bool.and_eq_true] at hxy hyz ⊢
    exact ⟨equal_trans x hxy.1 hyz.1, equalItems_trans xs hxy.2 hyz.2⟩

theorem equalEntries_trans : (xs : List (String × Value)) → {ys zs : List (String × Value)} →
    equalEntries xs ys = true → equalEntries ys zs = true → equalEntries xs zs = true
  | [], [], [], _, _ => rfl
  | (k, x) :: xs, (l, y) :: ys, (m, z) :: zs, hxy, hyz => by
    simp only [equalEntries, Bool.and_eq_true] at hxy hyz ⊢
    obtain ⟨⟨hkey, hvalue⟩, hrest⟩ := hxy
    obtain ⟨⟨hkey', hvalue'⟩, hrest'⟩ := hyz
    exact ⟨⟨PartialEquivBEq.trans hkey hkey', equal_trans x hvalue hvalue'⟩,
      equalEntries_trans xs hrest hrest'⟩
end

instance : PartialEquivBEq Value where
  symm := equal_symm _
  trans := equal_trans _

end Value

end Overlay
