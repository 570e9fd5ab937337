import Overlay.Proofs.Value.Inside

/-!
# Substitution for strings

All strings inside a value give place to values. The keys of maps stay.
-/

namespace Overlay.Value

mutual
def substitute (σ : String → Value) : Value → Value
  | .string s => σ s
  | .map entries => .map (substituteEntries σ entries)
  | .list items => .list (substituteItems σ items)
  | v => v

def substituteItems (σ : String → Value) : List Value → List Value
  | [] => []
  | v :: rest => substitute σ v :: substituteItems σ rest

def substituteEntries (σ : String → Value) : List (String × Value) → List (String × Value)
  | [] => []
  | (k, v) :: rest => (k, substitute σ v) :: substituteEntries σ rest
end

theorem substituteItems_eq (σ : String → Value) : ∀ items : List Value,
    substituteItems σ items = items.map (substitute σ)
  | [] => rfl
  | v :: rest => by rw [substituteItems, substituteItems_eq σ rest, List.map_cons]

theorem substituteEntries_eq (σ : String → Value) : ∀ entries : List (String × Value),
    substituteEntries σ entries = entries.map fun e => (e.1, substitute σ e.2)
  | [] => rfl
  | (k, v) :: rest => by rw [substituteEntries, substituteEntries_eq σ rest, List.map_cons]

theorem substitute_string (v : Value) : v.substitute .string = v := by
  induction v using induction with
  | map entries ih =>
    rw [substitute, substituteEntries_eq]
    refine congrArg Value.map ((List.map_congr_left fun e he => ?_).trans (List.map_id _))
    rw [ih e he]
    rfl
  | list items ih =>
    rw [substitute, substituteItems_eq]
    exact congrArg Value.list ((List.map_congr_left ih).trans (List.map_id _))
  | _ => rfl

end Overlay.Value
