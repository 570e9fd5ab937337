import Overlay.Proofs.Expansion.Expanded
import Overlay.Proofs.Literal.Basic

/-!
# Expansion comes to an end

The check of the depth alone ends the recursion of expansion, whatever circles its references make:
it determines what every value expands to. What is left holds no references, so to expand it again,
from wherever and within whatever limit, gives it back.
-/

namespace Overlay

theorem Text.after?_append : ∀ start rest : List Char, after? start (start ++ rest) = some rest
  | [], _ => rfl
  | p :: start, rest => by
    rw [List.cons_append, after?, if_pos rfl, after?_append start rest]

theorem Text.after?_eq_none_iff {start s : List Char} : after? start s = none ↔ ¬ start <+: s := by
  constructor
  · rintro h ⟨rest, rfl⟩
    rw [after?_append] at h
    cases h
  · intro h
    rw [Option.eq_none_iff_forall_ne_some]
    exact fun _ hrest => h (prefix_of_after? hrest)

namespace Expansion

open Value (Inside)

theorem stringReference?_eq_none_iff {s : String} : stringReference? s = none ↔
    ¬ Directive.mergeSymbol.toList <+: s.toList ∧ ¬ Directive.replaceSymbol.toList <+: s.toList := by
  rw [← Text.after?_eq_none_iff, ← Text.after?_eq_none_iff, stringReference?]
  cases Text.after? Directive.mergeSymbol.toList s.toList with
  | some _ => simp
  | none => simp

variable {site : Site} {limit : Nat}

/-! ## The recursion -/

/-- A family of functions, one for each depth, follows the recursion of expansion: each expands values
by itself and what they give place to by the next one, until the depth exceeds the limit. -/
def Deepens (site : Site) (limit : Nat) (expandAt : Nat → Value → String → Result Value) : Prop :=
  ∀ depth v path, expandAt depth v path =
    if limit < depth then .error (.atKey (.recursionLimit limit) path)
    else expandWith site (expandAt (depth + 1)) v path

theorem deepens_expandWithin (site : Site) (limit : Nat) :
    Deepens site limit fun depth => expandWithin site limit (limit + 1 - depth) := by
  intro depth v path
  dsimp only
  by_cases h : limit < depth
  · rw [if_pos h, Nat.sub_eq_zero_of_le h, expandWithin]
  · have hbudget : limit + 1 - depth = limit + 1 - (depth + 1) + 1 := by omega
    rw [if_neg h, hbudget, expandWithin]

theorem Deepens.eq_expandWithin {expandAt : Nat → Value → String → Result Value}
    (h : Deepens site limit expandAt) : ∀ (budget depth : Nat), limit + 1 - depth = budget →
      expandAt depth = expandWithin site limit budget
  | 0, depth, hbudget => by
    funext v path
    rw [h, if_pos (by omega), expandWithin]
  | budget + 1, depth, hbudget => by
    have ih := h.eq_expandWithin budget (depth + 1) (by omega)
    funext v path
    rw [h, if_neg (by omega), expandWithin, ih]

/-! ## What is left -/

theorem Expanded.keys {w : Value} (h : Expanded w) {entries : Entries Value}
    (hw : Inside (.map entries) w) :
    ∀ e ∈ entries, e.1 ≠ Directive.merge ∧ e.1 ≠ Directive.replace := by
  obtain ⟨hreplace, hmerge⟩ := h _ hw
  exact fun e he =>
    ⟨Entries.lookup_eq_none_iff.mp hmerge e he, Entries.lookup_eq_none_iff.mp hreplace e he⟩

theorem Expanded.strings {w : Value} (h : Expanded w) {s : String} (hw : Inside (.string s) w) :
    ¬ Directive.mergeSymbol.toList <+: s.toList ∧ ¬ Directive.replaceSymbol.toList <+: s.toList :=
  stringReference?_eq_none_iff.mp (h _ hw)

theorem expand_of_expanded {w : Value} (h : Expanded w) (path : String) :
    expand site limit w path = .ok w :=
  expandWith_of_expanded h path

/-- The recursion of expansion has exactly one solution, so expansion ends; and what it gives holds no
references at any depth and expands to itself in every document of every assembly, within every
limit. -/
theorem expand_leaves_no_reference (site : Site) (limit : Nat) :
    (∃ expandAt, Deepens site limit expandAt ∧ expandAt 0 = expand site limit ∧
      ∀ other, Deepens site limit other → other = expandAt) ∧
    ∀ (v : Value) (path : String) (w : Value), expand site limit v path = .ok w →
      (∀ entries, Inside (.map entries) w →
        ∀ e ∈ entries, e.1 ≠ Directive.merge ∧ e.1 ≠ Directive.replace) ∧
      (∀ s, Inside (.string s) w → ¬ Directive.mergeSymbol.toList <+: s.toList ∧
        ¬ Directive.replaceSymbol.toList <+: s.toList) ∧
      ∀ (site' : Site) (limit' : Nat) (path' : String), expand site' limit' w path' = .ok w := by
  refine ⟨⟨_, deepens_expandWithin site limit, rfl, fun other hother => ?_⟩, fun v path w hw => ?_⟩
  · funext depth
    exact hother.eq_expandWithin _ depth rfl
  · have hexpanded : Expanded w := expanded_of_expandWithin _ hw
    exact ⟨fun _ => hexpanded.keys, fun _ => hexpanded.strings,
      fun _ _ path' => expand_of_expanded hexpanded path'⟩

theorem expand_leaves_no_reference_of_splice :
    let document : Value := .map [("a", .map [("$merge", .string "b"), ("x", .int 1)]),
      ("b", .map [("y", .string "$replace:c.0")]), ("c", .list [.string "$merge:d"]),
      ("d", .bool true), ("e", .list [.int 0, .map [("$merge", .string "c")]])]
    let site : Site := ⟨⟨⟨[⟨"document", document, []⟩]⟩, [0]⟩, 0⟩
    let expanded : Value := .map [("a", .map [("x", .int 1), ("y", .bool true)]),
      ("b", .map [("y", .bool true)]), ("c", .list [.bool true]), ("d", .bool true),
      ("e", .list [.int 0, .bool true])]
    expand site 3 document "" = .ok expanded ∧
      ∀ (site' : Site) (limit' : Nat) (path' : String),
        expand site' limit' expanded path' = .ok expanded := by
  intro document site expanded
  have hexpand : expand site 3 document "" = .ok expanded := by cbv
  exact ⟨hexpand, ((expand_leaves_no_reference site 3).2 document "" expanded hexpand).2.2⟩

/-- A reference to itself is given up at the limit. -/
example :
    let site : Site := ⟨⟨⟨[⟨"document", .map [("a", .string "$merge:a")], []⟩]⟩, [0]⟩, 0⟩
    expand site 20 (.string "$merge:a") "a" = .error (.atKey (.recursionLimit 20) "a") := by cbv

end Expansion

end Overlay
