import Overlay.Proofs.Literal.Basic
import Overlay.Yaml.Scalar

/-!
# Scalars that are strings

Null, truth values and numbers are written without dollar signs, so a plain scalar that has one
stands for itself.
-/

namespace Overlay.Yaml

variable {s : List Char}

theorem isDigitOf_sign {base : Nat} (h : base ≤ 16) : Text.isDigitOf base '$' = false := by
  have hvalue : Text.digitValue '$' = 16 := by decide
  rw [Text.isDigitOf, hvalue]
  exact decide_eq_false (Nat.not_lt.mpr h)

theorem readNat?_of_sign (h : '$' ∈ s) {base : Nat} (hbase : base ≤ 16) :
    Text.readNat? base s = none := by
  unfold Text.readNat?
  apply if_neg
  rintro ⟨-, hdigits⟩
  have hsign := List.all_eq_true.mp hdigits '$' h
  rw [isDigitOf_sign hbase] at hsign
  cases hsign

theorem mem_tail_of_sign {c : Char} (hc : c ≠ '$') (h : '$' ∈ c :: s) : '$' ∈ s :=
  (List.mem_cons.mp h).resolve_left hc.symm

theorem isZeroPadded_of_sign (h : '$' ∈ s) : isZeroPadded s = false := by
  have hdigits : ∀ {digits : List Char}, '$' ∈ digits →
      (1 < digits.length && digits.head? = some '0' && digits.tail.all Text.isDigit) = false := by
    intro digits hmem
    cases digits with
    | nil => cases hmem
    | cons c t =>
      by_cases hc : c = '0'
      · have hall : t.all Text.isDigit = false := by
          rw [List.all_eq_false]
          exact ⟨'$', mem_tail_of_sign (hc ▸ by decide) hmem, by decide⟩
        rw [List.tail_cons, hall, Bool.and_false]
      · simp [hc]
  unfold isZeroPadded
  split
  · exact hdigits (mem_tail_of_sign (by decide) h)
  · exact hdigits (mem_tail_of_sign (by decide) h)
  · exact hdigits h

/-! ## Integers -/

theorem magnitude?_of_sign (h : '$' ∈ s) : magnitude? s = none := by
  have hbased : ∀ {mark : String} {base : Nat}, '$' ∉ mark.toList → base ≤ 16 →
      (do Text.readNat? base (← Text.after? mark.toList s)) = none := by
    intro mark base hmark hbase
    cases hafter : Text.after? mark.toList s with
    | none => rfl
    | some digits =>
      rw [← Text.append_of_after? hafter, List.mem_append] at h
      exact readNat?_of_sign (h.resolve_left hmark) hbase
  simp only [magnitude?, hbased (by decide : '$' ∉ "0x".toList) (by decide : 16 ≤ 16),
    hbased (by decide : '$' ∉ "0o".toList) (by decide : 8 ≤ 16),
    hbased (by decide : '$' ∉ "0b".toList) (by decide : 2 ≤ 16), isZeroPadded_of_sign h,
    readNat?_of_sign h (by decide : 10 ≤ 16)]
  rfl

theorem integer?_of_sign (h : '$' ∈ s) : integer? s = none := by
  unfold integer?
  split
  · have hrest := mem_tail_of_sign (by decide) h
    rw [isZeroPadded_of_sign hrest, magnitude?_of_sign hrest]
    rfl
  · rw [magnitude?_of_sign (mem_tail_of_sign (by decide) h)]
    rfl
  · rw [magnitude?_of_sign h]
    rfl

/-! ## Floats -/

theorem mem_dropWhile_of_sign (h : '$' ∈ s) : '$' ∈ s.dropWhile Text.isDigit := by
  have hsplit := List.takeWhile_append_dropWhile (p := Text.isDigit) (l := s)
  rw [← hsplit, List.mem_append] at h
  refine h.resolve_left fun hmem => ?_
  have hsign := List.all_eq_true.mp List.all_takeWhile '$' hmem
  cases hsign

theorem decimal?_of_sign (h : '$' ∈ s) : decimal? s = none := by
  have hexponent : ∀ {t : List Char}, '$' ∈ t → Text.readNat? 10 t = none :=
    fun ht => readNat?_of_sign ht (by decide)
  have hrest := mem_dropWhile_of_sign h
  unfold decimal?
  dsimp only
  generalize s.dropWhile Text.isDigit = rest at hrest ⊢
  -- After the digits, and those of a fraction, the sign is where only an exponent may be.
  split
  case' h_1 u =>
    replace hrest := mem_dropWhile_of_sign (mem_tail_of_sign (by decide) hrest)
    generalize u.dropWhile Text.isDigit = rest at hrest ⊢
  all_goals
    dsimp only
    split
    · rfl
    · split
      · cases hrest
      case h_8 => rfl
      all_goals
        rw [hexponent]
        · rfl
        · simpa using hrest

theorem finite?_of_sign (h : '$' ∈ s) : finite? s = none := by
  unfold finite?
  split
  rename_i negative digits hsplit
  have hdigits : '$' ∈ digits := by
    split at hsplit <;> cases hsplit
    · exact mem_tail_of_sign (by decide) h
    · exact mem_tail_of_sign (by decide) h
    · exact h
  rw [decimal?_of_sign hdigits]
  rfl

theorem contains_of_sign {names : List String} (hnames : ∀ n ∈ names, '$' ∉ n.toList)
    (h : '$' ∈ s) : names.contains (String.ofList s) = false := by
  rw [Bool.eq_false_iff, Ne, List.contains_iff_mem]
  intro hmem
  refine hnames _ hmem ?_
  rwa [String.toList_ofList]

theorem float?_of_sign (h : '$' ∈ s) : float? s = none := by
  have hnames : ∀ {t : List Char} {names : List String}, '$' ∈ t → (∀ n ∈ names, '$' ∉ n.toList) →
      ¬ names.contains (String.ofList t) = true := fun ht hnames => by
    rw [contains_of_sign hnames ht]
    decide
  unfold float?
  dsimp only
  rw [if_neg, if_neg (hnames h (by decide)), if_neg (hnames h (by decide)), finite?_of_sign h]
  split
  · exact hnames (mem_tail_of_sign (by decide) h) (by decide)
  · exact hnames h (by decide)

/-! ## Texts -/

theorem resolve_of_sign (h : '$' ∈ s) :
    resolve (String.ofList s) = .value (.string (String.ofList s)) := by
  have hbool : bool? (String.ofList s) = none := by
    rw [bool?, contains_of_sign (by decide) h, contains_of_sign (by decide) h]
    rfl
  have hnumber : number? s = none := by
    rw [number?, integer?_of_sign h, isZeroPadded_of_sign h, float?_of_sign h]
    rfl
  rw [resolve, isNullText, contains_of_sign (by decide) h, hbool, String.toList_ofList, hnumber]
  rfl

end Overlay.Yaml
