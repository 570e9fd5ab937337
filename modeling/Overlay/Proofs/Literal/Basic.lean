import Overlay.Proofs.Value.Inside
import Overlay.Text.Line

/-!
# Literal values

A text is literal unless it starts with a single dollar sign, as all directives and symbols do. A
value is literal if all texts inside it are, the keys of its maps included.
-/

namespace Overlay

/-! ## Texts -/

/-- Whether a text does not start with a single dollar sign. -/
def isLiteral (s : String) : Bool :=
  match s.toList with
  | '$' :: rest => rest.head? == some '$'
  | _ => true

theorem ne_of_isLiteral {s d : String} (hs : isLiteral s = true) (hd : isLiteral d = false) :
    s ≠ d := by
  rintro rfl
  rw [hs] at hd
  cases hd

theorem not_prefix_of_isLiteral {s : String} (hs : isLiteral s = true) {c : Char} (hc : c ≠ '$')
    (start : List Char) : ¬ '$' :: c :: start <+: s.toList := by
  rintro ⟨rest, hrest⟩
  rw [isLiteral, ← hrest] at hs
  exact hc (by simpa using hs)

theorem startsWith_of_isLiteral {s d : String} (hs : isLiteral s = true) {c : Char} (hc : c ≠ '$')
    (start : List Char) (hd : d.toList = '$' :: c :: start) : s.startsWith d = false := by
  rw [String.startsWith_string_eq_false_iff, hd]
  exact not_prefix_of_isLiteral hs hc start

theorem Text.append_of_after? : ∀ {start s rest : List Char}, after? start s = some rest →
    start ++ rest = s
  | [], _, _, h => Option.some.inj h.symm
  | _ :: _, [], _, h => by cases h
  | p :: start, c :: s, _, h => by
    rw [after?] at h
    split at h
    · rename_i hp
      rw [List.cons_append, append_of_after? h, hp]
    · cases h

theorem Text.prefix_of_after? {start s rest : List Char} (h : after? start s = some rest) :
    start <+: s :=
  ⟨rest, append_of_after? h⟩

theorem after?_of_isLiteral {s : String} (hs : isLiteral s = true) {c : Char} (hc : c ≠ '$')
    (start : List Char) : Text.after? ('$' :: c :: start) s.toList = none := by
  rw [Option.eq_none_iff_forall_ne_some]
  exact fun _ h => not_prefix_of_isLiteral hs hc start (Text.prefix_of_after? h)

/-! ## Entries -/

namespace Entries

variable {α : Type} {entries : Entries α} (h : ∀ e ∈ entries, isLiteral e.1 = true)
include h

theorem lookup_literal (key : String) (hk : isLiteral key = false) : lookup key entries = none :=
  lookup_eq_none_iff.mpr fun e he => ne_of_isLiteral (h e he) hk

theorem without_literal (keys : List String) (hk : ∀ key ∈ keys, isLiteral key = false) :
    without keys entries = entries :=
  List.filter_eq_self.mpr fun e he => by
    have hne : e.1 ∉ keys := fun hm => ne_of_isLiteral (h e he) (hk _ hm) rfl
    simpa using hne

end Entries

/-! ## Values -/

namespace Value

def Literal : Value → Prop :=
  Everywhere fun
    | .string s => isLiteral s = true
    | .map entries => ∀ e ∈ entries, isLiteral e.1 = true
    | _ => True

instance (v : Value) : Decidable v.Literal :=
  @decideEverywhere _ (fun
    | .string s => inferInstanceAs (Decidable (isLiteral s = true))
    | .map entries => inferInstanceAs (Decidable (∀ e ∈ entries, isLiteral e.1 = true))
    | .null | .bool _ | .int _ | .float _ | .list _ => isTrue trivial) v

theorem literal_string {s : String} : (Value.string s).Literal ↔ isLiteral s = true :=
  everywhere_scalar (by simp) (by simp)

theorem literal_map {entries : Entries Value} :
    (Value.map entries).Literal ↔ ∀ e ∈ entries, isLiteral e.1 = true ∧ e.2.Literal := by
  rw [Literal, everywhere_map, ← forall₂_and]

theorem literal_list {items : List Value} :
    (Value.list items).Literal ↔ ∀ x ∈ items, x.Literal :=
  everywhere_list.trans (and_iff_right trivial)

/-- No key of a map inside a value starts with a single dollar sign. -/
def LiteralKeys : Value → Prop :=
  Everywhere fun
    | .map entries => ∀ e ∈ entries, isLiteral e.1 = true
    | _ => True

theorem literalKeys_map {entries : Entries Value} :
    (Value.map entries).LiteralKeys ↔ ∀ e ∈ entries, isLiteral e.1 = true ∧ e.2.LiteralKeys := by
  rw [LiteralKeys, everywhere_map, ← forall₂_and]

theorem literalKeys_list {items : List Value} :
    (Value.list items).LiteralKeys ↔ ∀ x ∈ items, x.LiteralKeys :=
  everywhere_list.trans (and_iff_right trivial)

theorem Literal.keys {v : Value} (h : v.Literal) : v.LiteralKeys := by
  intro u hu
  have hl := h u hu
  cases u with
  | map entries => exact hl
  | _ => exact trivial

theorem LiteralKeys.lookup {entries : Entries Value} (h : (Value.map entries).LiteralKeys)
    (key : String) (hk : isLiteral key = false) : Entries.lookup key entries = none :=
  Entries.lookup_literal (fun e he => (literalKeys_map.mp h e he).1) key hk

theorem LiteralKeys.has {entries : Entries Value} (h : (Value.map entries).LiteralKeys)
    (key : String) (hk : isLiteral key = false) : Entries.has key entries = false := by
  rw [Entries.has, h.lookup key hk]
  rfl

theorem LiteralKeys.soleArgument? {v : Value} (h : v.LiteralKeys) (key : String)
    (hk : isLiteral key = false) : v.soleArgument? key = none := by
  unfold Value.soleArgument?
  split
  · rename_i k x
    exact if_neg (ne_of_isLiteral (literalKeys_map.mp h (k, x) List.mem_cons_self).1 hk)
  · rfl

theorem Literal.isString {v : Value} (h : v.Literal) (text : String)
    (ht : isLiteral text = false) : v.isString text = false := by
  cases v with
  | string s => exact beq_false_of_ne (ne_of_isLiteral (literal_string.mp h) ht)
  | _ => rfl

end Value

end Overlay
