import Mathlib.Data.List.Basic
import Overlay.Text.Numeral

/-!
# Digits of numbers

Numbers are written with digits, and only zero starts with the digit zero.
-/

namespace Overlay.Text

theorem digitValue_of_isDigit {c : Char} (h : c.isDigit = true) :
    digitValue c = c.toNat - '0'.toNat := by
  simp only [Char.isDigit, Bool.and_eq_true, decide_eq_true_eq] at h
  unfold digitValue
  exact if_pos h

theorem isDigit_of_isDigit {c : Char} (h : c.isDigit = true) : isDigit c = true := by
  unfold isDigit isDigitOf
  rw [digitValue_of_isDigit h, decide_eq_true_eq]
  simp only [Char.isDigit, Bool.and_eq_true, decide_eq_true_eq, UInt32.le_iff_toNat_le] at h
  have hle : c.toNat ≤ 57 := h.2
  simp only [Char.reduceToNat]
  omega

theorem isDigit_of_mem_decimal {n : Nat} {c : Char} (h : c ∈ decimal n) : c.isDigit = true :=
  Nat.isDigit_of_mem_toDigits (by decide) (by decide) h

theorem decimal_ne_nil (n : Nat) : decimal n ≠ [] :=
  Nat.toDigits_ne_nil

theorem natOfDigits_decimal (n : Nat) : natOfDigits 10 (decimal n) = n := by
  have hvalue : ∀ m, ∀ c ∈ decimal n, 10 * m + digitValue c = 10 * m + (c.toNat - '0'.toNat) :=
    fun m c hc => by rw [digitValue_of_isDigit (isDigit_of_mem_decimal hc)]
  calc natOfDigits 10 (decimal n) = Nat.ofDigitChars 10 (decimal n) 0 := by
        rw [natOfDigits, List.foldl_ext _ _ 0 hvalue, Nat.ofDigitChars_eq_foldl]
    _ = n := Nat.ofDigitChars_ten_toDigits

theorem readCount?_decimal (n : Nat) : readCount? (decimal n) = some n := by
  have hall : (decimal n).all (isDigitOf 10) = true :=
    List.all_eq_true.mpr fun c hc => isDigit_of_isDigit (isDigit_of_mem_decimal hc)
  have hread : readNat? 10 (decimal n) = some n := by
    rw [readNat?, if_pos ⟨decimal_ne_nil n, hall⟩, natOfDigits_decimal]
  unfold readCount?
  split
  · rename_i s hs
    have hplus : '+'.isDigit = true := isDigit_of_mem_decimal (hs ▸ List.mem_cons_self)
    cases hplus
  · exact hread

theorem exists_of_mem_hexOfWidth : ∀ {width n : Nat} {c : Char}, c ∈ hexOfWidth width n →
    ∃ m < 16, c = Nat.digitChar m
  | 0, _, _, h => by cases h
  | width + 1, n, c, h => by
    rw [hexOfWidth, List.mem_append, List.mem_singleton] at h
    rcases h with h | h
    · exact exists_of_mem_hexOfWidth h
    · exact ⟨n % 16, Nat.mod_lt n (by decide), h⟩

theorem digitChar_ne_zero : ∀ n < 10, Nat.digitChar n = '0' → n = 0 := by
  decide

theorem eq_zero_of_head?_decimal {n : Nat} (h : (decimal n).head? = some '0') : n = 0 := by
  induction n using Nat.strongRecOn with
  | ind n ih =>
    unfold decimal at h ih
    by_cases hn : n < 10
    · rw [Nat.toDigits_of_lt_base hn, List.head?_cons, Option.some.injEq] at h
      exact digitChar_ne_zero n hn h
    · have hge : 10 ≤ n := by omega
      have hhead : (Nat.toDigits 10 (n / 10)).head? = some '0' := by
        rw [Nat.toDigits_of_base_le (by decide) hge, List.head?_append] at h
        cases hd : Nat.toDigits 10 (n / 10) with
        | nil => exact absurd hd Nat.toDigits_ne_nil
        | cons d rest => rw [hd] at h; exact h
      have hzero : n / 10 = 0 := ih (n / 10) (by omega) hhead
      omega

end Overlay.Text
