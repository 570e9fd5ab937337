import Overlay.Expansion
import Overlay.Proofs.Result

/-!
# Expanding lists element by element

An element of a list expands to one value, or to those of the list that it stands for.
-/

namespace Overlay.Expansion

variable {site : Site} {next : Value → String → Result Value}

def spliced (next : Value → String → Result Value) (position : Nat) (path : String) :
    Value → Result (List Value)
  | .list items => expandAll next path position items
  | target => (fun v => [v]) <$> next target (KeyPath.item path position)

def expandItem (site : Site) (next : Value → String → Result Value) (position : Nat) (v : Value)
    (path : String) : Result (List Value) :=
  match v.soleArgument? Directive.merge with
  | some reference =>
    Reference.resolveAt site reference (KeyPath.item path position) >>= spliced next position path
  | none => (fun v => [v]) <$> expandWith site next v (KeyPath.item path position)

theorem substitute?_sole (reference : Value) (path : String) :
    substitute? site [(Directive.merge, reference)] path =
      some (Reference.resolveAt site reference path) := by
  show some (Reference.resolveAt site reference path >>= fun base => .ok base) = _
  cases Reference.resolveAt site reference path <;> rfl

/-- A map gives place to no value exactly if it holds no reference, but for a flag. -/
theorem substitute?_eq_none_iff {entries : Entries Value} {path : String} :
    substitute? site entries path = none ↔ Entries.lookup Directive.merge entries = none ∧
      ∀ v, Entries.lookup Directive.replace entries = some v → ∃ b, v = .bool b := by
  unfold substitute?
  cases hr : Entries.lookup Directive.replace entries with
  | none => cases hm : Entries.lookup Directive.merge entries <;> simp
  | some x =>
    cases x with
    | bool b => cases hm : Entries.lookup Directive.merge entries <;> simp
    | _ => simp

theorem expandAll_cons (path : String) (position : Nat) (v : Value) (rest : List Value) :
    expandAll next path position (v :: rest) =
      next v (KeyPath.item path position) >>= fun first =>
        (fun others => first :: others) <$> expandAll next path (position + 1) rest := by
  rw [expandAll]
  rfl

theorem expandEntries_cons (k : String) (v : Value) (rest : List (String × Value))
    (path : String) :
    expandEntries site next ((k, v) :: rest) path =
      if k = Directive.replace then expandEntries site next rest path
      else expandWith site next v (KeyPath.child path k) >>= fun first =>
        (fun others => (k, first) :: others) <$> expandEntries site next rest path := by
  rw [expandEntries]
  rfl

theorem expandItems_cons (position : Nat) (v : Value) (rest : List Value) (path : String) :
    expandItems site next position (v :: rest) path =
      expandItem site next position v path >>= fun expanded =>
        (fun others => expanded ++ others) <$>
          expandItems site next (position + expanded.length) rest path := by
  rw [expandItems, expandItem]
  cases v.soleArgument? Directive.merge with
  | none => cases expandWith site next v (KeyPath.item path position) <;> rfl
  | some reference =>
    dsimp only
    cases Reference.resolveAt site reference (KeyPath.item path position) with
    | error e => rfl
    | ok target =>
      cases target with
      | list items => cases expandAll next path position items <;> rfl
      | _ =>
        simp only [Result.ok_bind, spliced]
        generalize next _ (KeyPath.item path position) = found
        cases found <;> rfl

end Overlay.Expansion
