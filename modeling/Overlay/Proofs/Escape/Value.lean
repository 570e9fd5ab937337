import Overlay.Proofs.Escape.Text
import Overlay.Proofs.Value.WellFormed

/-!
# Escaping

To escape a value is to escape all its strings and keys. What is escaped is literal and unescapes to
what it was. Escaping keeps the order of texts, so an escaped map is sorted.
-/

namespace Overlay

namespace Output

theorem finalizeItems_eq (items : List Value) : finalizeItems items = items.map finalize := by
  induction items with
  | nil => rfl
  | cons v rest ih => rw [finalizeItems, ih, List.map_cons]

theorem finalizeEntries_eq (entries : List (String × Value)) : finalizeEntries entries =
    entries.map fun e => (unescapeText e.1, finalize e.2) := by
  induction entries with
  | nil => rfl
  | cons e rest ih => rw [finalizeEntries, ih, List.map_cons]

theorem finalize_map (entries : Entries Value) : finalize (.map entries) =
    .map (Entries.ofList (entries.map fun e => (unescapeText e.1, finalize e.2))) := by
  rw [finalize, finalizeEntries_eq]

theorem finalize_list (items : List Value) :
    finalize (.list items) = .list (items.map finalize) := by
  rw [finalize, finalizeItems_eq]

end Output

namespace Value

mutual
def escape : Value → Value
  | .string s => .string (escapeText s)
  | .map entries => .map (escapeEntries entries)
  | .list items => .list (escapeItems items)
  | v => v

def escapeItems : List Value → List Value
  | [] => []
  | v :: rest => escape v :: escapeItems rest

def escapeEntries : List (String × Value) → List (String × Value)
  | [] => []
  | (k, v) :: rest => (escapeText k, escape v) :: escapeEntries rest
end

theorem escapeItems_eq : ∀ items : List Value, escapeItems items = items.map escape
  | [] => rfl
  | v :: rest => by rw [escapeItems, escapeItems_eq rest, List.map_cons]

theorem escapeEntries_eq : ∀ entries : List (String × Value),
    escapeEntries entries = entries.map fun e => (escapeText e.1, escape e.2)
  | [] => rfl
  | (k, v) :: rest => by rw [escapeEntries, escapeEntries_eq rest, List.map_cons]

theorem literal_escape (v : Value) : v.escape.Literal := by
  induction v using induction with
  | string s => exact literal_string.mpr (isLiteral_escapeText s)
  | map entries ih =>
    rw [escape, escapeEntries_eq, literal_map, List.forall_mem_map]
    exact fun e he => ⟨isLiteral_escapeText e.1, ih e he⟩
  | list items ih =>
    rw [escape, escapeItems_eq, literal_list, List.forall_mem_map]
    exact ih
  | _ =>
    intro u hu
    cases hu
    exact trivial

theorem WellFormed.escape {v : Value} (h : v.WellFormed) : v.escape.WellFormed := by
  induction v using induction with
  | map entries ih =>
    obtain ⟨hs, h⟩ := wellFormed_map.mp h
    rw [Value.escape, escapeEntries_eq, wellFormed_map, List.forall_mem_map]
    refine ⟨hs.map _ fun a b hab => escapeText_lt hab, fun e he => ih e he (h e he)⟩
  | list items ih =>
    have h := wellFormed_list.mp h
    rw [Value.escape, escapeItems_eq, wellFormed_list, List.forall_mem_map]
    exact fun x hx => ih x hx (h x hx)
  | _ => exact trivial

/-- Unescaping undoes escaping. -/
theorem finalize_escape {v : Value} (h : v.WellFormed) : Output.finalize v.escape = v := by
  induction v using induction with
  | string s => rw [Value.escape, Output.finalize, unescapeText_escapeText]
  | map entries ih =>
    obtain ⟨hs, h⟩ := wellFormed_map.mp h
    have hentries : (escapeEntries entries).map
        (fun e => (Output.unescapeText e.1, Output.finalize e.2)) = entries := by
      rw [escapeEntries_eq, List.map_map]
      refine (List.map_congr_left fun e he => ?_).trans (List.map_id entries)
      rw [Function.comp_apply, unescapeText_escapeText, ih e he (h e he)]
      rfl
    rw [Value.escape, Output.finalize_map, hentries, hs.ofList]
  | list items ih =>
    have h := wellFormed_list.mp h
    have hitems : (escapeItems items).map Output.finalize = items := by
      rw [escapeItems_eq, List.map_map]
      exact (List.map_congr_left fun x hx => ih x hx (h x hx)).trans (List.map_id items)
    rw [Value.escape, Output.finalize_list, hitems]
  | _ => rfl

end Value

end Overlay
