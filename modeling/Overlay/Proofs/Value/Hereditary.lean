import Overlay.Proofs.Value.Keys
import Overlay.Proofs.Value.Number

/-!
# Hereditary properties

A property is hereditary if a container has it exactly if all it holds has it, and its keys have one
too. What takes values apart and puts them together keeps such properties.
-/

namespace Overlay.Value

variable {K L : String → Prop} {P Q : Value → Prop}

structure Hereditary (K : String → Prop) (P : Value → Prop) : Prop where
  null : P .null
  map : ∀ {entries : Entries Value}, P (.map entries) ↔ ∀ e ∈ entries, K e.1 ∧ P e.2
  list : ∀ {items : List Value}, P (.list items) ↔ ∀ x ∈ items, P x

/-! ## Properties of keys, texts and numbers -/

def IfString (T : String → Prop) : Value → Prop
  | .string s => T s
  | _ => True

/-- All texts inside a value have a property, its keys apart. -/
def Texts (T : String → Prop) : Value → Prop :=
  Everywhere (IfString T)

instance {T : String → Prop} [DecidablePred T] : DecidablePred (IfString T)
  | .string s => inferInstanceAs (Decidable (T s))
  | .null | .bool _ | .int _ | .float _ | .map _ | .list _ => isTrue trivial

instance {T : String → Prop} [DecidablePred T] (v : Value) : Decidable (v.Texts T) :=
  inferInstanceAs (Decidable (Everywhere _ v))

theorem hereditary_keyed (K : String → Prop) : Hereditary K (Keyed K) where
  null := keyed_scalar nofun nofun
  map := keyed_map
  list := keyed_list

theorem hereditary_texts (T : String → Prop) : Hereditary (fun _ => True) (Texts T) where
  null := by
    intro u hu
    cases hu
    exact trivial
  map := everywhere_map.trans (by simp [IfString, Texts])
  list := everywhere_list.trans (and_iff_right trivial)

theorem hereditary_floats (F : Float → Prop) : Hereditary (fun _ => True) (Floats F) where
  null := floats_null
  map := floats_map.trans (by simp)
  list := floats_list

theorem Hereditary.and (hP : Hereditary K P) (hQ : Hereditary L Q) :
    Hereditary (fun k => K k ∧ L k) (fun v => P v ∧ Q v) where
  null := ⟨hP.null, hQ.null⟩
  map := by
    intro entries
    rw [hP.map, hQ.map, ← forall₂_and]
    refine forall₂_congr fun e _ => ?_
    rw [and_and_and_comm]
  list := by
    intro items
    rw [hP.list, hQ.list, ← forall₂_and]

/-! ## What containers pass on -/

namespace Hereditary

variable (hP : Hereditary K P) {entries : Entries Value}
include hP

theorem lookup (h : P (.map entries)) {key : String} {v : Value}
    (hv : Entries.lookup key entries = some v) : K key ∧ P v :=
  hP.map.mp h _ (Entries.mem_of_lookup hv)

theorem sublist {others : Entries Value} (h : P (.map entries)) (hsub : others.Sublist entries) :
    P (.map others) :=
  hP.map.mpr fun e he => hP.map.mp h e (hsub.subset he)

theorem erase (h : P (.map entries)) (key : String) : P (.map (Entries.erase key entries)) :=
  hP.sublist h (Entries.erase_sublist key entries)

theorem without (h : P (.map entries)) (keys : List String) :
    P (.map (Entries.without keys entries)) :=
  hP.sublist h List.filter_sublist

theorem insert {key : String} {v : Value} (hkey : K key) (hv : P v) (h : P (.map entries)) :
    P (.map (Entries.insert key v entries)) :=
  hP.map.mpr (Entries.forall_insert ⟨hkey, hv⟩ (hP.map.mp h))

end Hereditary

end Overlay.Value
