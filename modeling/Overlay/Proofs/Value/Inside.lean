import Overlay.Proofs.Entries
import Overlay.Value.Basic

/-!
# What stands inside a value

`Inside u v` says that `u` is `v` itself or stands somewhere in it, at any depth. `Everywhere P v`
says that `P` holds of all that stands inside `v`.
-/

namespace Overlay.Value

def isLeaf : Value → Bool
  | .map _ | .list _ => false
  | _ => true

inductive Inside (u : Value) : Value → Prop
  | refl : Inside u u
  | entry {entries : Entries Value} {e : String × Value} :
    e ∈ entries → Inside u e.2 → Inside u (.map entries)
  | item {items : List Value} {x : Value} : x ∈ items → Inside u x → Inside u (.list items)

theorem inside_map {u : Value} {entries : Entries Value} :
    Inside u (.map entries) ↔ u = .map entries ∨ ∃ e ∈ entries, Inside u e.2 := by
  constructor
  · intro h
    cases h with
    | refl => exact .inl rfl
    | entry he h => exact .inr ⟨_, he, h⟩
  · rintro (rfl | ⟨e, he, h⟩)
    · exact .refl
    · exact .entry he h

theorem inside_list {u : Value} {items : List Value} :
    Inside u (.list items) ↔ u = .list items ∨ ∃ x ∈ items, Inside u x := by
  constructor
  · intro h
    cases h with
    | refl => exact .inl rfl
    | item hx h => exact .inr ⟨_, hx, h⟩
  · rintro (rfl | ⟨x, hx, h⟩)
    · exact .refl
    · exact .item hx h

theorem inside_scalar {u v : Value} (hm : ∀ entries, v ≠ .map entries)
    (hl : ∀ items, v ≠ .list items) : Inside u v ↔ u = v := by
  constructor
  · intro h
    cases h with
    | refl => rfl
    | entry => exact absurd rfl (hm _)
    | item => exact absurd rfl (hl _)
  · rintro rfl
    exact .refl

theorem Inside.trans {u v w : Value} (huv : Inside u v) (hvw : Inside v w) : Inside u w := by
  induction hvw with
  | refl => exact huv
  | entry he _ ih => exact .entry he ih
  | item hx _ ih => exact .item hx ih

def Everywhere (P : Value → Prop) (v : Value) : Prop :=
  ∀ u, Inside u v → P u

section
variable {P : Value → Prop}

theorem Everywhere.of_inside {u v : Value} (h : Everywhere P v) (hu : Inside u v) : Everywhere P u :=
  fun _ hw => h _ (hw.trans hu)

theorem everywhere_map {entries : Entries Value} :
    Everywhere P (.map entries) ↔ P (.map entries) ∧ ∀ e ∈ entries, Everywhere P e.2 := by
  constructor
  · exact fun h => ⟨h _ .refl, fun e he u hu => h u (.entry he hu)⟩
  · rintro ⟨h, hentries⟩ u hu
    rcases inside_map.mp hu with rfl | ⟨e, he, hu⟩
    · exact h
    · exact hentries e he u hu

theorem everywhere_list {items : List Value} :
    Everywhere P (.list items) ↔ P (.list items) ∧ ∀ x ∈ items, Everywhere P x := by
  constructor
  · exact fun h => ⟨h _ .refl, fun x hx u hu => h u (.item hx hu)⟩
  · rintro ⟨h, hitems⟩ u hu
    rcases inside_list.mp hu with rfl | ⟨x, hx, hu⟩
    · exact h
    · exact hitems x hx u hu

theorem everywhere_scalar {v : Value} (hm : ∀ entries, v ≠ .map entries)
    (hl : ∀ items, v ≠ .list items) : Everywhere P v ↔ P v :=
  ⟨fun h => h _ .refl, fun h _ hu => (inside_scalar hm hl).mp hu ▸ h⟩

theorem everywhere_leaf {v : Value} (h : v.isLeaf) : Everywhere P v ↔ P v :=
  everywhere_scalar (by rintro _ rfl; cases h) (by rintro _ rfl; cases h)

end

section
variable (P : Value → Prop) [DecidablePred P]

def decideScalar {v : Value} (hm : ∀ entries, v ≠ .map entries) (hl : ∀ items, v ≠ .list items) :
    Decidable (Everywhere P v) :=
  decidable_of_iff (P v) (everywhere_scalar hm hl).symm

mutual
def decideEverywhere : (v : Value) → Decidable (Everywhere P v)
  | .map entries =>
    have := decideEverywhereEntries entries
    decidable_of_iff (P (.map entries) ∧ ∀ e ∈ entries, Everywhere P e.2) everywhere_map.symm
  | .list items =>
    have := decideEverywhereItems items
    decidable_of_iff (P (.list items) ∧ ∀ x ∈ items, Everywhere P x) everywhere_list.symm
  | .null => decideScalar P (fun _ => nofun) (fun _ => nofun)
  | .bool _ => decideScalar P (fun _ => nofun) (fun _ => nofun)
  | .int _ => decideScalar P (fun _ => nofun) (fun _ => nofun)
  | .float _ => decideScalar P (fun _ => nofun) (fun _ => nofun)
  | .string _ => decideScalar P (fun _ => nofun) (fun _ => nofun)

def decideEverywhereItems : (items : List Value) → Decidable (∀ x ∈ items, Everywhere P x)
  | [] => isTrue (List.forall_mem_nil _)
  | x :: xs =>
    have := decideEverywhere x
    have := decideEverywhereItems xs
    decidable_of_iff (Everywhere P x ∧ ∀ y ∈ xs, Everywhere P y) List.forall_mem_cons.symm

def decideEverywhereEntries :
    (entries : List (String × Value)) → Decidable (∀ e ∈ entries, Everywhere P e.2)
  | [] => isTrue (List.forall_mem_nil _)
  | (k, x) :: rest =>
    have := decideEverywhere x
    have := decideEverywhereEntries rest
    decidable_of_iff (Everywhere P x ∧ ∀ e ∈ rest, Everywhere P e.2)
      (List.forall_mem_cons (a := (k, x)) (p := fun e => Everywhere P e.2)).symm
end

instance (v : Value) : Decidable (Everywhere P v) :=
  decideEverywhere P v

end

section
variable {motive : Value → Prop} (null : motive .null) (bool : ∀ b, motive (.bool b))
  (int : ∀ n, motive (.int n)) (float : ∀ x, motive (.float x))
  (string : ∀ s, motive (.string s))
  (map : ∀ entries : Entries Value, (∀ e ∈ entries, motive e.2) → motive (.map entries))
  (list : ∀ items : List Value, (∀ x ∈ items, motive x) → motive (.list items))
include null bool int float string map list

/-- Induction over a value: the hypothesis of a container is about all it holds. -/
@[elab_as_elim]
theorem induction (v : Value) : motive v :=
  Value.rec (motive_1 := motive) (motive_2 := fun entries => ∀ e ∈ entries, motive e.2)
    (motive_3 := fun items => ∀ x ∈ items, motive x) (motive_4 := fun e => motive e.2)
    null bool int float string map list
    (fun _ h => by cases h)
    (fun _ _ he hrest => List.forall_mem_cons.mpr ⟨he, hrest⟩)
    (fun _ h => by cases h)
    (fun _ _ hx hrest => List.forall_mem_cons.mpr ⟨hx, hrest⟩)
    (fun _ _ hv => hv) v

end

end Overlay.Value
