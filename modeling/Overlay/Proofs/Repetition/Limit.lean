import Overlay.Proofs.Repetition.Range

/-!
# How many copies there are

Numbers of copies, ranges and named dimensions are held to the limit of copies. A list of values is
not, unless it is a named dimension (`bindings_exceed_iff`).
-/

namespace Overlay.Repetition

theorem length_range {entries : Entries Value} {values : List Value}
    (h : range entries = .ok values) : values.length ≤ copyLimit := by
  unfold range at h
  split at h
  · cases h
  · simp only [Result.bind_eq_ok, guarded_eq_ok, checkCopies_eq_ok,
      Result.mapM_eq_ok fun _ _ => numberAt_eq_ok] at h
    obtain ⟨first, -, last, -, count, -, step, -, -, ⟨start, length⟩, -, hpos, -, hlimit, -, rfl⟩ := h
    rw [List.length_map, List.length_range]
    dsimp only at hpos hlimit ⊢
    omega

theorem length_dimension {spec : Value} {values : List Value} (h : dimension spec = .ok values) :
    values.length ≤ copyLimit ∨ spec = .list values := by
  cases spec with
  | int n =>
    simp only [dimension, guarded_eq_ok, Result.bind_eq_ok, checkCopies_eq_ok] at h
    obtain ⟨hpos, -, hlimit, hvalues⟩ := h
    cases hvalues
    refine .inl ?_
    rw [List.length_map, List.length_range]
    omega
  | list items =>
    cases h
    exact .inr rfl
  | map entries =>
    simp only [dimension] at h
    split at h
    · exact .inl (length_range h)
    · cases h
  | _ => cases h

theorem length_extend (symbol : String) (values : List Value) (bindings : List Binding) :
    (extend symbol values bindings).length = bindings.length * values.length := by
  simp [extend, List.length_flatMap]

/-- What one dimension keeps to, all of them keep to. -/
theorem length_combinations : ∀ {entries : List (String × Value)} {bindings found : List Binding},
    bindings.length ≤ copyLimit → combinations bindings entries = .ok found →
      found.length ≤ copyLimit
  | [], _, _, hlength, h => by
    cases h
    exact hlength
  | (name, spec) :: rest, bindings, found, _, h => by
    simp only [combinations, guarded_eq_ok, Result.bind_eq_ok, checkCopies_eq_ok] at h
    obtain ⟨-, values, -, -, hlimit, h⟩ := h
    refine length_combinations ?_ h
    rw [length_extend]
    exact_mod_cast hlimit

theorem length_bindings {spec : Value} {found : List Binding} (h : bindings spec = .ok found) :
    found.length ≤ copyLimit ∨ ∃ items, spec = .list items ∧ found.length = items.length := by
  have unnamed : (dimension spec).map (fun values => values.map fun v => [(Directive.repeatOver, v)]) =
      .ok found →
        found.length ≤ copyLimit ∨ ∃ items, spec = .list items ∧ found.length = items.length := by
    intro h
    obtain ⟨values, hvalues, rfl⟩ := Result.map_eq_ok.mp h
    rw [List.length_map]
    exact (length_dimension hvalues).imp_right fun hspec => ⟨values, hspec, rfl⟩
  unfold bindings at h
  split at h
  · cases h
  · split at h
    · exact unnamed h
    · exact .inl (length_combinations (by decide) h)
  · exact unnamed h

theorem bindings_list (items : List Value) :
    bindings (.list items) = .ok (items.map fun v => [(Directive.repeatOver, v)]) := rfl

/-- There are more copies than the limit allows exactly for a list of more values. -/
theorem bindings_exceed_iff (spec : Value) :
    (∃ found, bindings spec = .ok found ∧ copyLimit < found.length) ↔
      ∃ items, spec = .list items ∧ copyLimit < items.length := by
  constructor
  · rintro ⟨found, h, hexceeds⟩
    obtain ⟨items, rfl, hlength⟩ := (length_bindings h).resolve_left (not_le.mpr hexceeds)
    exact ⟨items, rfl, hlength ▸ hexceeds⟩
  · rintro ⟨items, rfl, hexceeds⟩
    refine ⟨_, bindings_list items, ?_⟩
    rwa [List.length_map]

/-- So the number of copies is not held to the limit, as that of a list of one value too many shows. -/
theorem bindings_of_long_list :
    ¬ ∀ (spec : Value) (found : List Binding), bindings spec = .ok found →
      found.length ≤ copyLimit := by
  intro h
  have hlength := h _ _ (bindings_list (List.replicate 100001 (.int 0)))
  rw [List.length_map, List.length_replicate] at hlength
  revert hlength
  decide

end Overlay.Repetition
