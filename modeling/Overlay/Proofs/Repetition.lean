import Overlay.Proofs.Result
import Overlay.Proofs.Value.Keys
import Overlay.Repetition

/-!
# What copies are bound to

Copies are bound to numbers and to what stands in the lists of their specification.
-/

namespace Overlay.Repetition

variable {K : String → Prop}

theorem keyed_range {entries : Entries Value} {values : List Value} (h : range entries = .ok values) :
    ∀ v ∈ values, v.Keyed K := by
  unfold range at h
  split at h
  · cases h
  · obtain ⟨first, -, h⟩ := Result.bind_eq_ok.mp h
    obtain ⟨last, -, h⟩ := Result.bind_eq_ok.mp h
    obtain ⟨count, -, h⟩ := Result.bind_eq_ok.mp h
    obtain ⟨step, -, h⟩ := Result.bind_eq_ok.mp h
    dsimp only at h
    split at h
    · cases h
    · obtain ⟨⟨start, length⟩, -, h⟩ := Result.bind_eq_ok.mp h
      split at h
      · cases h
      · obtain ⟨-, -, h⟩ := Result.bind_eq_ok.mp h
        intro v hv
        obtain ⟨position, -, hv⟩ := Result.exists_of_mem_mapM h hv
        obtain ⟨offset, -, hv⟩ := Result.bind_eq_ok.mp hv
        obtain ⟨n, -, hv⟩ := Result.bind_eq_ok.mp hv
        cases hv
        exact Value.keyed_int _

theorem keyed_dimension {spec : Value} (hspec : spec.KeyedInLists K) {values : List Value}
    (h : dimension spec = .ok values) : ∀ v ∈ values, v.Keyed K := by
  cases spec with
  | int n =>
    simp only [dimension] at h
    split at h
    · cases h
    · obtain ⟨-, -, h⟩ := Result.bind_eq_ok.mp h
      cases h
      exact List.forall_mem_map.mpr fun i _ => Value.keyed_int _
  | list items =>
    cases h
    exact Value.keyedInLists_list.mp hspec
  | map entries =>
    simp only [dimension] at h
    split at h
    · exact keyed_range h
    · cases h
  | _ => cases h

theorem keyed_combinations : ∀ {entries : List (String × Value)} {bindings found : List Binding},
    (∀ e ∈ entries, e.2.KeyedInLists K) → (∀ b ∈ bindings, ∀ e ∈ b, e.2.Keyed K) →
      combinations bindings entries = .ok found → ∀ b ∈ found, ∀ e ∈ b, e.2.Keyed K
  | [], bindings, found, _, hbindings, h => by
    cases h
    exact hbindings
  | (name, spec) :: rest, bindings, found, hentries, hbindings, h => by
    obtain ⟨hspec, hrest⟩ := List.forall_mem_cons.mp hentries
    rw [combinations] at h
    split at h
    · cases h
    · obtain ⟨values, hvalues, h⟩ := Result.bind_eq_ok.mp h
      obtain ⟨-, -, h⟩ := Result.bind_eq_ok.mp h
      refine keyed_combinations hrest ?_ h
      intro b hb
      obtain ⟨before, hbefore, hb⟩ := List.mem_flatMap.mp hb
      obtain ⟨v, hv, rfl⟩ := List.mem_map.mp hb
      refine List.forall_mem_append.mpr ⟨hbindings before hbefore, ?_⟩
      exact List.forall_mem_singleton.mpr (keyed_dimension hspec hvalues v hv)

theorem keyed_bindings {spec : Value} (hspec : spec.KeyedInLists K) {found : List Binding}
    (h : bindings spec = .ok found) : ∀ b ∈ found, ∀ e ∈ b, e.2.Keyed K := by
  have unnamed : (dimension spec).map (fun values => values.map fun v => [(Directive.repeatOver, v)]) =
      .ok found → ∀ b ∈ found, ∀ e ∈ b, e.2.Keyed K := by
    intro h
    obtain ⟨values, hvalues, rfl⟩ := Result.map_eq_ok.mp h
    refine List.forall_mem_map.mpr fun v hv => ?_
    exact List.forall_mem_singleton.mpr (keyed_dimension hspec hvalues v hv)
  unfold bindings at h
  split at h
  · cases h
  · split at h
    · exact unnamed h
    · refine keyed_combinations (Value.keyedInLists_map.mp hspec) ?_ h
      exact List.forall_mem_singleton.mpr nofun
  · exact unnamed h

end Overlay.Repetition
