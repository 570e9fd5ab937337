import Mathlib
import Overlay.Proofs.Value.Inside

/-!
# Equality of values

`==` fails to be reflexive only for floats that are no number.
-/

namespace Overlay.Value

/-- No float inside a value is other than a number. -/
def NaNFree (v : Value) : Prop :=
  ∀ x, Inside (.float x) v → x.isNaN = false

theorem NaNFree.entry {entries : Entries Value} (h : (Value.map entries).NaNFree)
    {e : String × Value} (he : e ∈ entries) : e.2.NaNFree :=
  fun x hx => h x (.entry he hx)

theorem NaNFree.item {items : List Value} (h : (Value.list items).NaNFree) {v : Value}
    (hv : v ∈ items) : v.NaNFree :=
  fun x hx => h x (.item hv hx)

theorem float_beq_self {x : Float} (h : x.isNaN = false) : (x == x) = true := by
  show x.toModel.unpack.beq x.toModel.unpack = true
  have h : x.toModel.unpack.isNaN = false := h
  cases hx : x.toModel.unpack with
  | notANumber => rw [hx] at h; cases h
  | infinity s => cases s <;> rfl
  | zero s => rfl
  | finite s m e _ => cases s <;> simp [Float.Model.UnpackedFloat.beq, Float.Model.UnpackedFloat.compare]

theorem equalItems_iff {xs : List Value} :
    ∀ {ys : List Value}, equalItems xs ys = true ↔ List.Forall₂ (fun x y => equal x y = true) xs ys := by
  induction xs with
  | nil => intro ys; cases ys <;> simp [equalItems]
  | cons x xs ih => intro ys; cases ys <;> simp [equalItems, ih]

theorem beq_items (xs : List Value) : ∀ ys : List Value, (xs == ys) = equalItems xs ys := by
  induction xs with
  | nil => intro ys; cases ys <;> rfl
  | cons x xs ih =>
    intro ys
    cases ys with
    | nil => rfl
    | cons y ys => exact congrArg (equal x y && ·) (ih ys)

theorem equalEntries_iff {xs : List (String × Value)} :
    ∀ {ys : List (String × Value)}, equalEntries xs ys = true ↔
      List.Forall₂ (fun a b => a.1 = b.1 ∧ equal a.2 b.2 = true) xs ys := by
  induction xs with
  | nil => intro ys; cases ys <;> simp [equalEntries]
  | cons a xs ih =>
    intro ys
    cases ys with
    | nil => simp [equalEntries]
    | cons b ys => simp [equalEntries, ih]

theorem equal_self (v : Value) (h : v.NaNFree) : equal v v = true := by
  induction v using induction with
  | null => rfl
  | bool b => simp [equal]
  | int n => simp [equal]
  | float x => simpa [equal] using float_beq_self (h x .refl)
  | string s => simp [equal]
  | map entries ih =>
    rw [equal, equalEntries_iff]
    exact List.forall₂_same.mpr fun e he => ⟨rfl, ih e he (h.entry he)⟩
  | list items ih =>
    rw [equal, equalItems_iff]
    exact List.forall₂_same.mpr fun x hx => ih x hx (h.item hx)

theorem equal_map_of_lookup {xs ys : Entries Value} (hx : Entries.Sorted xs)
    (hy : Entries.Sorted ys)
    (h : ∀ key, Option.Rel (fun x y => equal x y = true) (Entries.lookup key xs)
      (Entries.lookup key ys)) : equal (.map xs) (.map ys) = true := by
  rw [equal, equalEntries_iff]
  exact Entries.forall₂_of_lookup hx hy h

theorem rel_lookup_of_equal_map {xs ys : Entries Value} (h : equal (.map xs) (.map ys) = true)
    (key : String) :
    Option.Rel (fun x y => equal x y = true) (Entries.lookup key xs) (Entries.lookup key ys) := by
  rw [equal, equalEntries_iff] at h
  exact Entries.rel_lookup_of_forall₂ h key

end Overlay.Value
