import Overlay.Proofs.Decimal.Text
import Overlay.Proofs.Escape.Value
import Overlay.Proofs.Json.Scalar
import Overlay.Value.Plain

/-!
# JSON of escaped values

JSON has no use for the dollar sign, so the text of an escaped value is the escaped text of the value.
The same holds of plain texts.
-/

namespace Overlay

namespace Decimal

theorem doubled_render {l : Layout} (hnan : '$' ∉ l.notANumber.toList)
    (hinf : '$' ∉ l.infinity.toList) (x : Float) : doubled (l.render x).toList = (l.render x).toList := by
  apply doubled_eq_self
  intro h
  rcases mem_render h with h | h | h
  · cases h
  · exact hnan h
  · exact hinf h

end Decimal

theorem doubled_int (n : Int) : doubled (toString n).toList = (toString n).toList := by
  have hdecimal : ∀ m, '$' ∉ Text.decimal m := fun m h => by
    cases Text.isDigit_of_mem_decimal h
  apply doubled_eq_self
  rcases Json.int_text n with ⟨m, hm⟩ | ⟨m, hm⟩
  · rw [hm]
    exact hdecimal m
  · rw [hm]
    exact List.not_mem_cons_of_ne_of_not_mem (by decide) (hdecimal m)

theorem not_mem_hexOfWidth {width n : Nat} : '$' ∉ Text.hexOfWidth width n := by
  intro h
  have hdigit : ∀ m < 16, '$' ≠ Nat.digitChar m := by decide
  obtain ⟨m, hm, hsign⟩ := Text.exists_of_mem_hexOfWidth h
  exact hdigit m hm hsign

theorem not_mem_upperHex {width n : Nat} : '$' ∉ (Text.hexOfWidth width n).map Char.toUpper := by
  intro h
  have hdigit : ∀ m < 16, (Nat.digitChar m).toUpper ≠ '$' := by decide
  obtain ⟨c, hc, hsign⟩ := List.mem_map.mp h
  obtain ⟨m, hm, rfl⟩ := Text.exists_of_mem_hexOfWidth hc
  exact hdigit m hm hsign

namespace Json

theorem not_mem_escape {c : Char} (h : c ≠ '$') : '$' ∉ escape c := by
  have hhex : '$' ∉ Text.hexOfWidth 4 c.toNat := not_mem_hexOfWidth
  unfold escape
  split_ifs <;> simp [hhex, h.symm]

theorem quoted_escapeText (s : String) : quoted (escapeText s) = doubled (quoted s) := by
  have hchars := doubled_flatMap (f := escape) rfl (fun c hc => not_mem_escape hc) s.toList
  rw [quoted, quoted, toList_escapeText, ← hchars, doubled_cons_of_ne (by decide), doubled_append]
  rfl

theorem doubled_lineBreak (style : Style) (depth : Nat) :
    doubled (style.lineBreak depth) = style.lineBreak depth := by
  apply doubled_eq_self
  cases style with
  | compact => exact List.not_mem_nil
  | pretty =>
    rw [Style.lineBreak, List.mem_cons, List.mem_replicate]
    simp

theorem doubled_colon (style : Style) : doubled style.colon = style.colon := by
  cases style <;> rfl

theorem doubled_floatText (x : Float) : doubled (floatText x) = floatText x := by
  unfold floatText
  split
  · exact Decimal.doubled_render (by decide) (by decide) x
  · rfl

mutual
theorem chars_escape (style : Style) (depth : Nat) :
    ∀ v : Value, chars style depth v.escape = doubled (chars style depth v)
  | .null => rfl
  | .bool b => by cases b <;> rfl
  | .int n => (doubled_int n.toInt).symm
  | .float x => (doubled_floatText x).symm
  | .string s => quoted_escapeText s
  | .map [] => rfl
  | .map ((k, x) :: rest) => by
    rw [Value.escape, Value.escapeEntries, chars, chars, chars_escape style (depth + 1) x,
      charsEntries_escape style depth rest, quoted_escapeText, doubled_cons_of_ne (by decide)]
    simp only [doubled_append, doubled_lineBreak, doubled_colon]
  | .list [] => rfl
  | .list (x :: rest) => by
    rw [Value.escape, Value.escapeItems, chars, chars, chars_escape style (depth + 1) x,
      charsItems_escape style depth rest, doubled_cons_of_ne (by decide)]
    simp only [doubled_append, doubled_lineBreak]

theorem charsItems_escape (style : Style) (depth : Nat) : ∀ items : List Value,
    charsItems style depth (Value.escapeItems items) = doubled (charsItems style depth items)
  | [] => by
    rw [Value.escapeItems, charsItems, doubled_append, doubled_lineBreak]
    rfl
  | x :: rest => by
    rw [Value.escapeItems, charsItems, charsItems, chars_escape style (depth + 1) x,
      charsItems_escape style depth rest, doubled_cons_of_ne (by decide)]
    simp only [doubled_append, doubled_lineBreak]

theorem charsEntries_escape (style : Style) (depth : Nat) : ∀ entries : List (String × Value),
    charsEntries style depth (Value.escapeEntries entries) = doubled (charsEntries style depth entries)
  | [] => by
    rw [Value.escapeEntries, charsEntries, doubled_append, doubled_lineBreak]
    rfl
  | (k, x) :: rest => by
    rw [Value.escapeEntries, charsEntries, charsEntries, chars_escape style (depth + 1) x,
      charsEntries_escape style depth rest, quoted_escapeText, doubled_cons_of_ne (by decide)]
    simp only [doubled_append, doubled_lineBreak, doubled_colon]
end

theorem compact_escape (v : Value) : compact v.escape = escapeText (compact v) := by
  rw [compact, chars_escape, escapeText, compact, String.toList_ofList]

theorem pretty_escape (v : Value) : pretty v.escape = escapeText (pretty v) := by
  rw [pretty, chars_escape, escapeText, pretty, String.toList_ofList]

end Json

theorem Value.plain_escape (v : Value) : v.escape.plain = escapeText v.plain := by
  cases v with
  | null => rfl
  | bool b => cases b <;> rfl
  | int n => exact (escapeText_of_doubled (doubled_int n.toInt)).symm
  | float x => exact (escapeText_of_doubled (Decimal.doubled_render (by decide) (by decide) x)).symm
  | string s => rfl
  | map entries => exact Json.compact_escape (.map entries)
  | list items => exact Json.compact_escape (.list items)

end Overlay
