import Overlay.Proofs.Value.Inside

/-!
# Keys inside a value

`Keyed K v` says that `K` holds of the keys of all maps inside `v`. A specification of copies keeps the
keys it is written with, but its values come out of lists, so only what stands in these matters:
`KeyedInLists`.
-/

namespace Overlay.Value

variable {K : String → Prop}

def AllKeys (K : String → Prop) : Value → Prop
  | .map entries => ∀ e ∈ entries, K e.1
  | _ => True

def Keyed (K : String → Prop) : Value → Prop :=
  Everywhere (AllKeys K)

def AllItems (P : Value → Prop) : Value → Prop
  | .list items => ∀ x ∈ items, P x
  | _ => True

def KeyedInLists (K : String → Prop) : Value → Prop :=
  Everywhere (AllItems (Keyed K))

instance [DecidablePred K] : DecidablePred (AllKeys K)
  | .map entries => inferInstanceAs (Decidable (∀ e ∈ entries, K e.1))
  | .null | .bool _ | .int _ | .float _ | .string _ | .list _ => isTrue trivial

instance [DecidablePred K] (v : Value) : Decidable (v.Keyed K) :=
  inferInstanceAs (Decidable (Everywhere _ v))

theorem keyed_scalar {v : Value} (hm : ∀ entries, v ≠ .map entries) (hl : ∀ items, v ≠ .list items) :
    v.Keyed K := by
  rw [Keyed, everywhere_scalar hm hl]
  cases v with
  | map entries => exact absurd rfl (hm entries)
  | _ => exact trivial

@[simp] theorem keyed_string (s : String) : (Value.string s).Keyed K :=
  keyed_scalar nofun nofun

@[simp] theorem keyed_int (n : Int64) : (Value.int n).Keyed K :=
  keyed_scalar nofun nofun

theorem keyed_map {entries : Entries Value} :
    (Value.map entries).Keyed K ↔ ∀ e ∈ entries, K e.1 ∧ e.2.Keyed K := by
  rw [Keyed, everywhere_map]
  constructor
  · exact fun h e he => ⟨h.1 e he, h.2 e he⟩
  · exact fun h => ⟨fun e he => (h e he).1, fun e he => (h e he).2⟩

theorem keyed_list {items : List Value} : (Value.list items).Keyed K ↔ ∀ x ∈ items, x.Keyed K :=
  everywhere_list.trans (and_iff_right trivial)

theorem keyed_true (v : Value) : v.Keyed fun _ => True := by
  intro u _
  cases u with
  | map entries => exact fun _ _ => trivial
  | _ => exact trivial

theorem Keyed.inLists {v : Value} (h : v.Keyed K) : v.KeyedInLists K := by
  intro u hu
  cases u with
  | list items => exact keyed_list.mp (h.of_inside hu)
  | _ => exact trivial

theorem keyedInLists_map {entries : Entries Value} :
    (Value.map entries).KeyedInLists K ↔ ∀ e ∈ entries, e.2.KeyedInLists K :=
  everywhere_map.trans (and_iff_right trivial)

theorem keyedInLists_list {items : List Value} :
    (Value.list items).KeyedInLists K ↔ ∀ x ∈ items, x.Keyed K := by
  constructor
  · exact fun h => h _ .refl
  · exact fun h => (keyed_list.mpr h).inLists

end Overlay.Value
