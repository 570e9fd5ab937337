import Overlay.Value.Basic

/-!
# Well-formed values

A value is well formed if its maps are sorted, at every depth. This can be decided.
-/

namespace Overlay.Value

theorem wellFormedItems_iff :
    ∀ {items : List Value}, WellFormedItems items ↔ ∀ x ∈ items, x.WellFormed
  | [] => by simp [WellFormedItems]
  | x :: xs => by simp [WellFormedItems, @wellFormedItems_iff xs]

theorem wellFormedEntries_iff :
    ∀ {entries : List (String × Value)}, WellFormedEntries entries ↔ ∀ e ∈ entries, e.2.WellFormed
  | [] => by simp [WellFormedEntries]
  | (k, x) :: rest => by simp [WellFormedEntries, @wellFormedEntries_iff rest]

theorem wellFormed_map {entries : Entries Value} :
    (Value.map entries).WellFormed ↔
      Entries.Sorted entries ∧ ∀ e ∈ entries, e.2.WellFormed := by
  rw [WellFormed, wellFormedEntries_iff]

theorem wellFormed_list {items : List Value} :
    (Value.list items).WellFormed ↔ ∀ x ∈ items, x.WellFormed := by
  rw [WellFormed, wellFormedItems_iff]

instance (entries : Entries Value) : Decidable (Entries.Sorted entries) :=
  inferInstanceAs (Decidable (entries.Pairwise fun a b => a.1 < b.1))

mutual
def decideWellFormed : (v : Value) → Decidable v.WellFormed
  | .map entries =>
    have := decideWellFormedEntries entries
    inferInstanceAs (Decidable (Entries.Sorted entries ∧ WellFormedEntries entries))
  | .list items => decideWellFormedItems items
  | .null | .bool _ | .int _ | .float _ | .string _ => isTrue trivial

def decideWellFormedItems : (items : List Value) → Decidable (WellFormedItems items)
  | [] => isTrue trivial
  | x :: xs =>
    have := decideWellFormed x
    have := decideWellFormedItems xs
    inferInstanceAs (Decidable (WellFormed x ∧ WellFormedItems xs))

def decideWellFormedEntries :
    (entries : List (String × Value)) → Decidable (WellFormedEntries entries)
  | [] => isTrue trivial
  | (_, x) :: rest =>
    have := decideWellFormed x
    have := decideWellFormedEntries rest
    inferInstanceAs (Decidable (WellFormed x ∧ WellFormedEntries rest))
end

instance (v : Value) : Decidable v.WellFormed :=
  decideWellFormed v

end Overlay.Value
