import Overlay.Proofs.Value.Equality

/-!
# Numbers that are equal

Two floats that `==` holds of are the same bits, unless they are zeros of different signs: a float
that is a number is unpacked into sign, mantissa and exponent, and these give its bits back. So
equal values without negative zeros are one and the same.
-/

namespace Overlay

namespace Number

open Float.Model (UnpackedFloat)
open Float.Model.UnpackedFloat (Sign unpack unpackSign unpackExponent unpackMantissa)

/-! ## Fields of the bits -/

section
variable (b : BitVec 64)

def sign : Sign :=
  .ofBitVec (@unpackSign .binary64 b)

def exponent : Nat :=
  b.toNat / 2 ^ 52 % 2 ^ 11

def mantissa : Nat :=
  b.toNat % 2 ^ 52

theorem mantissa_lt : mantissa b < 2 ^ 52 :=
  Nat.mod_lt _ (by decide)

theorem toNat_unpackMantissa : (@unpackMantissa .binary64 b).toNat = mantissa b := by
  simp [unpackMantissa, mantissa]

theorem toNat_unpackExponent : (@unpackExponent .binary64 b).toNat = exponent b := by
  simp [unpackExponent, Nat.shiftRight_eq_div_pow, exponent]

theorem sign_eq_positive_iff : sign b = .positive ↔ b.toNat < 2 ^ 63 := by
  have hlt : b.toNat < 2 ^ 64 := b.isLt
  have hbit : @unpackSign .binary64 b = 0#1 ↔ b.toNat < 2 ^ 63 := by
    rw [← BitVec.toNat_inj]
    simp [unpackSign, Nat.shiftRight_eq_div_pow]
    omega
  rw [← hbit, sign, Sign.ofBitVec]
  by_cases hzero : @unpackSign .binary64 b = 0#1
  · simp only [hzero, if_true]
  · simp only [hzero, if_false, reduceCtorEq]

end

section
variable {a b : BitVec 64}

theorem eq_of_fields (hsign : sign a = sign b) (hexponent : exponent a = exponent b)
    (hmantissa : mantissa a = mantissa b) : a = b := by
  have hhalf : a.toNat < 2 ^ 63 ↔ b.toNat < 2 ^ 63 := by
    rw [← sign_eq_positive_iff, ← sign_eq_positive_iff, hsign]
  have ha : a.toNat < 2 ^ 64 := a.isLt
  have hb : b.toNat < 2 ^ 64 := b.isLt
  unfold exponent mantissa at *
  apply BitVec.eq_of_toNat_eq
  omega

theorem exponent_eq_zero_iff : @unpackExponent .binary64 b = 0#11 ↔ exponent b = 0 := by
  rw [← toNat_unpackExponent, ← BitVec.toNat_inj]
  rfl

/-! ## Unpacking -/

theorem infinity_fields {s : Sign} (h : unpack .binary64 b = .infinity s) :
    s = sign b ∧ exponent b = 2047 ∧ mantissa b = 0 := by
  unfold unpack at h
  dsimp only at h
  split at h
  · rename_i hexponent
    split at h
    · rename_i hmantissa
      injection h with hs
      rw [← toNat_unpackMantissa, ← toNat_unpackExponent, hmantissa, hexponent]
      exact ⟨hs.symm, rfl, rfl⟩
    · cases h
  · split at h
    · split at h <;> cases h
    · cases h

theorem zero_fields {s : Sign} (h : unpack .binary64 b = .zero s) :
    s = sign b ∧ exponent b = 0 ∧ mantissa b = 0 := by
  unfold unpack at h
  dsimp only at h
  split at h
  · split at h <;> cases h
  · split at h
    · rename_i hexponent
      split at h
      · rename_i hmantissa
        injection h with hs
        rw [← toNat_unpackMantissa, hmantissa]
        exact ⟨hs.symm, exponent_eq_zero_iff.mp hexponent, rfl⟩
      · cases h
    · cases h

theorem finite_fields {s : Sign} {m : Nat} {e : Int} {hm : 0 < m}
    (h : unpack .binary64 b = .finite s m e hm) : s = sign b ∧
      (exponent b = 0 ∧ m = mantissa b ∧ e = -1074 ∨
        0 < exponent b ∧ m = 2 ^ 52 + mantissa b ∧ e = exponent b - 1075) := by
  unfold unpack at h
  dsimp only at h
  split at h
  · split at h <;> cases h
  · split at h
    · rename_i hexponent
      have hexponent := exponent_eq_zero_iff.mp hexponent
      split at h
      · cases h
      · injection h with hs hm he
        rw [toNat_unpackMantissa] at hm
        rw [toNat_unpackExponent, hexponent] at he
        exact ⟨hs.symm, .inl ⟨hexponent, hm.symm, he.symm⟩⟩
    · rename_i hexponent
      injection h with hs hm he
      rw [BitVec.toNat_append, toNat_unpackMantissa] at hm
      rw [toNat_unpackExponent] at he
      have hpos : 0 < exponent b :=
        Nat.pos_of_ne_zero fun hzero => hexponent (exponent_eq_zero_iff.mpr hzero)
      refine ⟨hs.symm, .inr ⟨hpos, ?_, he.symm⟩⟩
      rw [← hm]
      exact (Nat.shiftLeft_add_eq_or_of_lt (mantissa_lt b) 1).symm

theorem unpack_inj (h : unpack .binary64 a = unpack .binary64 b)
    (hn : unpack .binary64 b ≠ .notANumber) : a = b := by
  cases hb : unpack .binary64 b with
  | notANumber => exact absurd hb hn
  | infinity s =>
    obtain ⟨hs, he, hm⟩ := infinity_fields (h.trans hb)
    obtain ⟨hs', he', hm'⟩ := infinity_fields hb
    exact eq_of_fields (hs.symm.trans hs') (he.trans he'.symm) (hm.trans hm'.symm)
  | zero s =>
    obtain ⟨hs, he, hm⟩ := zero_fields (h.trans hb)
    obtain ⟨hs', he', hm'⟩ := zero_fields hb
    exact eq_of_fields (hs.symm.trans hs') (he.trans he'.symm) (hm.trans hm'.symm)
  | finite s m e _ =>
    obtain ⟨hs, ha⟩ := finite_fields (h.trans hb)
    obtain ⟨hs', hb⟩ := finite_fields hb
    -- The mantissa of a subnormal number is too small for any other.
    have hlt := mantissa_lt a
    have hlt' := mantissa_lt b
    refine eq_of_fields (hs.symm.trans hs') ?_ ?_ <;> omega

end

/-! ## Comparing -/

theorem beq_cases {x y : UnpackedFloat} (h : x.beq y = true) :
    y ≠ .notANumber ∧ (x = y ∨ (∃ s, x = .zero s) ∧ ∃ s, y = .zero s) := by
  have h : x.compare y = some .eq := by simpa [UnpackedFloat.beq] using h
  cases x with
  | notANumber => cases h
  | infinity s =>
    cases y with
    | infinity t =>
      have hst : s = t := by cases s <;> cases t <;> first | rfl | cases h
      simp [hst]
    | _ => cases s <;> cases h
  | zero s =>
    cases y with
    | zero t => simp
    | notANumber => cases h
    | infinity t => cases t <;> cases h
    | finite t _ _ _ => cases t <;> cases h
  | finite s m e _ =>
    cases y with
    | finite t n f _ =>
      cases s <;> cases t <;>
        simp [UnpackedFloat.compare, Ordering.then_eq_eq] at h <;> simp [h]
    | notANumber => cases h
    | infinity t => cases s <;> cases t <;> cases h
    | zero t => cases s <;> cases h

theorem unpack_inj_of_float {x y : Float} (h : x.toModel.unpack = y.toModel.unpack)
    (hn : y.toModel.unpack ≠ .notANumber) : x = y := by
  obtain ⟨⟨⟨a⟩, ha⟩⟩ := x
  obtain ⟨⟨⟨b⟩, hb⟩⟩ := y
  obtain rfl : a = b := unpack_inj h hn
  rfl

theorem eq_of_beq {x y : Float} (h : (x == y) = true) (hx : x ≠ -0.0) (hy : y ≠ -0.0) :
    x = y := by
  have hunpack : (-0.0 : Float).toModel.unpack = .zero .negative := rfl
  have hpositive : ∀ {z : Float}, z ≠ -0.0 → ∀ s, z.toModel.unpack = .zero s →
      s = .positive := by
    intro z hz s hs
    cases s with
    | positive => rfl
    | negative => exact absurd (unpack_inj_of_float (hs.trans hunpack.symm) (by simp [hunpack])) hz
  obtain ⟨hn, heq | ⟨⟨s, hs⟩, t, ht⟩⟩ := beq_cases h
  · exact unpack_inj_of_float heq hn
  · refine unpack_inj_of_float ?_ hn
    rw [hs, ht, hpositive hx s hs, hpositive hy t ht]

end Number

/-! ## Values -/

namespace Value

def IfFloat (P : Float → Prop) : Value → Prop
  | .float x => P x
  | _ => True

/-- All floats inside a value have a property. -/
def Floats (P : Float → Prop) : Value → Prop :=
  Everywhere (IfFloat P)

section
variable {P : Float → Prop}

instance [DecidablePred P] : DecidablePred (IfFloat P)
  | .float x => inferInstanceAs (Decidable (P x))
  | .null | .bool _ | .int _ | .string _ | .map _ | .list _ => isTrue trivial

instance [DecidablePred P] (v : Value) : Decidable (v.Floats P) :=
  inferInstanceAs (Decidable (Everywhere _ v))

theorem Floats.of_inside {v : Value} (h : v.Floats P) {x : Float} (hx : Inside (.float x) v) :
    P x :=
  h _ hx

theorem Floats.imp {Q : Float → Prop} (hpq : ∀ x, P x → Q x) {v : Value} (h : v.Floats P) :
    v.Floats Q := by
  intro u hu
  cases u with
  | float x => exact hpq x (h.of_inside hu)
  | _ => exact trivial

theorem floats_map {entries : Entries Value} :
    (Value.map entries).Floats P ↔ ∀ e ∈ entries, e.2.Floats P :=
  everywhere_map.trans (and_iff_right trivial)

theorem floats_list {items : List Value} :
    (Value.list items).Floats P ↔ ∀ x ∈ items, x.Floats P :=
  everywhere_list.trans (and_iff_right trivial)

theorem floats_null : Value.null.Floats P := by
  intro u hu
  cases hu
  exact trivial

theorem floats_bool (b : Bool) : (Value.bool b).Floats P := by
  intro u hu
  cases hu
  exact trivial

theorem floats_string (s : String) : (Value.string s).Floats P := by
  intro u hu
  cases hu
  exact trivial

end

theorem eq_of_equal {v w : Value} (h : equal v w = true) (hv : v.Floats (· ≠ -0.0))
    (hw : w.Floats (· ≠ -0.0)) : v = w := by
  induction v using induction generalizing w with
  | float x =>
    cases w with
    | float y => rw [Number.eq_of_beq h (hv.of_inside .refl) (hw.of_inside .refl)]
    | _ => cases h
  | map entries ih =>
    cases w with
    | map others =>
      rw [equal, equalEntries_iff, List.forall₂_iff_get] at h
      obtain ⟨hlength, hentries⟩ := h
      refine congrArg Value.map (List.ext_get hlength fun i hi hi' => ?_)
      obtain ⟨hkey, hvalue⟩ := hentries i hi hi'
      have hmem := List.get_mem entries ⟨i, hi⟩
      exact Prod.ext hkey (ih _ hmem hvalue (floats_map.mp hv _ hmem)
        (floats_map.mp hw _ (List.get_mem others ⟨i, hi'⟩)))
    | _ => cases h
  | list items ih =>
    cases w with
    | list others =>
      rw [equal, equalItems_iff, List.forall₂_iff_get] at h
      obtain ⟨hlength, hitems⟩ := h
      refine congrArg Value.list (List.ext_get hlength fun i hi hi' => ?_)
      have hmem := List.get_mem items ⟨i, hi⟩
      exact ih _ hmem (hitems i hi hi') (floats_list.mp hv _ hmem)
        (floats_list.mp hw _ (List.get_mem others ⟨i, hi'⟩))
    | _ => cases h
  | _ => cases w <;> simp_all [equal]

end Value

end Overlay
