import Overlay.Proofs.Escape.Json
import Overlay.Properties

/-!
# Properties of escaped values

The dollar sign separates nothing in properties, so the text of an escaped value is the escaped text
of the value.
-/

namespace Overlay

namespace KeyPath

theorem child_escapeText (parent segment : String) :
    child (escapeText parent) (escapeText segment) = escapeText (child parent segment) := by
  unfold child
  by_cases h : parent = ""
  · rw [if_pos h, if_pos (escapeText_eq_empty.mpr h)]
  · rw [if_neg h, if_neg (mt escapeText_eq_empty.mp h), escapeText_append, escapeText_append]
    rfl

theorem item_escapeText (parent : String) (position : Nat) :
    item (escapeText parent) position = escapeText (item parent position) := by
  have hposition : escapeText (toString position) = toString position := by
    apply escapeText_eq_self
    intro h
    rw [Nat.toString_eq_repr, Nat.toList_repr] at h
    cases Text.isDigit_of_mem_decimal h
  rw [item, item, ← child_escapeText, hposition]

end KeyPath

namespace Properties

mutual
theorem flatten_escape (path : String) :
    ∀ v : Value, flatten (escapeText path) v.escape = (flatten path v).map escapeText
  | .null | .bool _ | .int _ | .float _ | .string _ => by
    simp only [flatten, ← Value.plain_escape, Value.escape, escapeText_append, List.map_cons,
      List.map_nil]
    rfl
  | .map entries => by rw [Value.escape, flatten, flatten, flattenEntries_escape path entries]
  | .list items => by rw [Value.escape, flatten, flatten, flattenItems_escape path 0 items]

theorem flattenEntries_escape (path : String) : ∀ entries : List (String × Value),
    flattenEntries (escapeText path) (Value.escapeEntries entries) =
      (flattenEntries path entries).map escapeText
  | [] => rfl
  | (k, v) :: rest => by
    rw [Value.escapeEntries, flattenEntries, flattenEntries, KeyPath.child_escapeText,
      flatten_escape _ v, flattenEntries_escape path rest, List.map_append]

theorem flattenItems_escape (path : String) (position : Nat) : ∀ items : List Value,
    flattenItems (escapeText path) position (Value.escapeItems items) =
      (flattenItems path position items).map escapeText
  | [] => rfl
  | v :: rest => by
    rw [Value.escapeItems, flattenItems, flattenItems, KeyPath.item_escapeText,
      flatten_escape _ v, flattenItems_escape path (position + 1) rest, List.map_append]
end

theorem render_escape (v : Value) : render v.escape = escapeText (render v) := by
  have hflatten := flatten_escape "" v
  rw [escapeText_eq_empty.mpr rfl] at hflatten
  rw [render, hflatten, render, escapeText_joined]
  rfl

end Properties

end Overlay
