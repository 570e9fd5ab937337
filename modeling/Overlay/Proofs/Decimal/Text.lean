import Overlay.Decimal.Layout
import Overlay.Proofs.Text.Numeral

/-!
# Characters of decimals

However a float is laid out, its text is made of digits, a point, signs and the mark of an exponent,
apart from the words for what is no finite number.
-/

namespace Overlay.Decimal

/-- The characters of a number: digits, the point, signs and the mark of an exponent. -/
def isNumeric (c : Char) : Bool :=
  c.isDigit || ['.', '-', '+', 'e'].contains c

theorem isNumeric_of_isDigit {c : Char} (h : c.isDigit = true) : isNumeric c = true := by
  rw [isNumeric, h, Bool.true_or]

theorem all_decimal (n : Nat) : (Text.decimal n).all isNumeric = true :=
  List.all_eq_true.mpr fun _ hc => isNumeric_of_isDigit (Text.isDigit_of_mem_decimal hc)

theorem all_zeros (n : Nat) : (List.replicate n '0').all isNumeric = true := by
  rw [List.all_eq_true]
  intro c hc
  rw [(List.mem_replicate.mp hc).2]
  rfl

theorem all_sublist {s t : List Char} (h : s.Sublist t) (ht : t.all isNumeric = true) :
    s.all isNumeric = true :=
  List.all_eq_true.mpr fun c hc => List.all_eq_true.mp ht c (h.subset hc)

theorem all_positional (wholeFraction : Bool) (d : Scaled) :
    (d.positional wholeFraction).all isNumeric = true := by
  have htail : (if wholeFraction then ['.', '0'] else []).all isNumeric = true := by
    cases wholeFraction <;> rfl
  have hdigits := all_decimal d.digits
  have hpoint : isNumeric '.' = true := rfl
  have hzero : isNumeric '0' = true := rfl
  unfold Scaled.positional
  dsimp only
  split
  · simp only [List.all_append, hdigits, all_zeros, htail, Bool.and_self]
  · split
    · simp only [List.all_append, List.all_cons, all_sublist (List.take_sublist _ _) hdigits,
        all_sublist (List.drop_sublist _ _) hdigits, hpoint, Bool.and_self]
    · simp only [List.all_append, List.all_cons, hdigits, all_zeros, hpoint, hzero, Bool.and_self]

theorem all_scientific (exponentPlus : Bool) (d : Scaled) :
    (d.scientific exponentPlus).all isNumeric = true := by
  have hsign : ∀ power : Int, (if power < 0 then ['-'] else if exponentPlus then ['+'] else []).all
      isNumeric = true := by
    intro power
    split
    · rfl
    · cases exponentPlus <;> rfl
  have hmark : isNumeric 'e' = true := rfl
  have hdigits := all_decimal d.digits
  unfold Scaled.scientific
  dsimp only
  simp only [List.all_append, List.all_cons, hsign, hmark, all_decimal, Bool.and_true]
  split
  · rename_i c e rest heq
    rw [heq] at hdigits
    simp only [List.all_cons, Bool.and_eq_true] at hdigits ⊢
    exact ⟨hdigits.1, rfl, hdigits.2⟩
  · exact hdigits

theorem all_digits (l : Layout) (d : Scaled) : (l.digits d).all isNumeric = true := by
  unfold Layout.digits
  dsimp only
  split
  · split
    · exact all_positional _ d
    · exact all_scientific _ d
  · exact all_positional _ d

theorem mem_signed {sign text : String} (hsign : sign.toList.all isNumeric = true) {c : Char}
    (h : c ∈ (sign ++ text).toList) : isNumeric c = true ∨ c ∈ text.toList := by
  rw [String.toList_append, List.mem_append] at h
  exact h.imp_left (List.all_eq_true.mp hsign c)

/-- The characters of a float as text: those of numbers, and those of the words of its layout. -/
theorem mem_render {l : Layout} {x : Float} {c : Char} (h : c ∈ (l.render x).toList) :
    isNumeric c = true ∨ c ∈ l.notANumber.toList ∨ c ∈ l.infinity.toList := by
  have hsign : (if Word.half ≤ x.toBits.toNat then "-" else "").toList.all isNumeric = true := by
    split <;> rfl
  have hzero : ∀ wholeFraction : Bool,
      (if wholeFraction then "0.0" else "0").toList.all isNumeric = true := by
    decide
  unfold Layout.render at h
  dsimp only at h
  generalize (if Word.half ≤ x.toBits.toNat then "-" else "") = sign at h hsign
  by_cases hnan : x.isNaN = true
  · rw [if_pos hnan] at h
    exact .inr (.inl h)
  rw [if_neg hnan] at h
  by_cases hinf : x.isInf = true
  · rw [if_pos hinf] at h
    exact (mem_signed hsign h).imp_right .inr
  rw [if_neg hinf] at h
  by_cases hx : (x == 0) = true
  · rw [if_pos hx] at h
    exact (mem_signed hsign h).elim .inl fun h =>
      .inl (List.all_eq_true.mp (hzero l.wholeFraction) c h)
  · rw [if_neg hx] at h
    refine (mem_signed hsign h).elim .inl fun h => .inl ?_
    rw [String.toList_ofList] at h
    exact List.all_eq_true.mp (all_digits l _) c h

end Overlay.Decimal
