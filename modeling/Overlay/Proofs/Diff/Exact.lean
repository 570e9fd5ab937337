import Overlay.Proofs.Diff.RoundTrip
import Overlay.Proofs.Escape.Value
import Overlay.Proofs.Literal.Stages
import Overlay.Proofs.Merge.Hereditary

/-!
# Differences of data

Data are values without dollar signs, so without directives, and without floats that `==` is not
identity for. Merging the difference of two of them into the first gives the second itself.
-/

namespace Overlay

namespace Value

def IfText (P : String → Prop) : Value → Prop
  | .string s => P s
  | .map entries => ∀ e ∈ entries, P e.1
  | _ => True

instance {P : String → Prop} [DecidablePred P] : DecidablePred (IfText P)
  | .string s => inferInstanceAs (Decidable (P s))
  | .map entries => inferInstanceAs (Decidable (∀ e ∈ entries, P e.1))
  | .null | .bool _ | .int _ | .float _ | .list _ => isTrue trivial

/-- No text inside a value has a dollar sign, the keys of its maps included. -/
def DollarFree : Value → Prop :=
  Everywhere (IfText fun s => '$' ∉ s.toList)

instance (v : Value) : Decidable v.DollarFree :=
  inferInstanceAs (Decidable (Everywhere _ v))

theorem dollarFree_string {s : String} : (Value.string s).DollarFree ↔ '$' ∉ s.toList :=
  everywhere_scalar (by simp) (by simp)

theorem dollarFree_map {entries : Entries Value} :
    (Value.map entries).DollarFree ↔ ∀ e ∈ entries, '$' ∉ e.1.toList ∧ e.2.DollarFree :=
  everywhere_map.trans forall₂_and.symm

theorem dollarFree_list {items : List Value} :
    (Value.list items).DollarFree ↔ ∀ x ∈ items, x.DollarFree :=
  everywhere_list.trans (and_iff_right trivial)

theorem DollarFree.escape {v : Value} (h : v.DollarFree) : v.escape = v := by
  induction v using induction with
  | string s => rw [Value.escape, escapeText_eq_self (dollarFree_string.mp h)]
  | map entries ih =>
    have h := dollarFree_map.mp h
    rw [Value.escape, escapeEntries_eq]
    refine congrArg Value.map ((List.map_congr_left fun e he => ?_).trans (List.map_id _))
    obtain ⟨hk, hv⟩ := h e he
    rw [escapeText_eq_self hk, ih e he hv]
    rfl
  | list items ih =>
    have h := dollarFree_list.mp h
    rw [Value.escape, escapeItems_eq]
    exact congrArg Value.list ((List.map_congr_left fun x hx => ih x hx (h x hx)).trans
      (List.map_id _))
  | _ => rfl

theorem DollarFree.literal {v : Value} (h : v.DollarFree) : v.Literal := by
  rw [← h.escape]
  exact literal_escape v

/-- A value that is no more than data. -/
structure Data (v : Value) : Prop where
  wellFormed : v.WellFormed
  dollarFree : v.DollarFree
  numbers : v.Floats fun x => x.isNaN = false ∧ x ≠ -0.0

theorem data_iff {v : Value} : v.Data ↔
    v.WellFormed ∧ v.DollarFree ∧ v.Floats fun x => x.isNaN = false ∧ x ≠ -0.0 :=
  ⟨fun ⟨hw, hd, hf⟩ => ⟨hw, hd, hf⟩, fun ⟨hw, hd, hf⟩ => ⟨hw, hd, hf⟩⟩

instance (v : Value) : Decidable v.Data :=
  decidable_of_iff _ data_iff.symm

theorem Data.finalize {v : Value} (h : v.Data) : Output.finalize v = v := by
  have hfinal := finalize_escape h.wellFormed
  rwa [h.dollarFree.escape] at hfinal

/-! ## Merging back -/

section
variable {P : Float → Prop}

theorem floats_deletion {v : Value} (h : v.Floats P) : (deletion v).Floats P :=
  floats_map.mpr (List.forall_mem_singleton.mpr h)

theorem floats_replaceMarker : replaceMarker.Floats P :=
  floats_map.mpr (List.forall_mem_singleton.mpr (floats_bool true))

theorem floats_diffLists {a b : List Value} (ha : ∀ v ∈ a, v.Floats P) (hb : ∀ v ∈ b, v.Floats P) :
    ∀ v ∈ diffLists a b, v.Floats P := by
  have hsteps : ∀ v ∈ (a.filter fun v => !b.contains v).map deletion ++
      b.filter (fun v => !a.contains v), v.Floats P := by
    refine List.forall_mem_append.mpr ⟨List.forall_mem_map.mpr fun v hv => ?_, fun v hv => ?_⟩
    · exact floats_deletion (ha v (List.mem_of_mem_filter hv))
    · exact hb v (List.mem_of_mem_filter hv)
  have hreplacement : ∀ v ∈ b ++ [replaceMarker], v.Floats P :=
    List.forall_mem_append.mpr ⟨hb, List.forall_mem_singleton.mpr floats_replaceMarker⟩
  rw [diffLists]
  generalize (List.all _ isMap && _) = reproduces
  cases reproduces with
  | true => exact hsteps
  | false => exact hreplacement

theorem floats_diff {a b : Value} (ha : a.Floats P) (hb : b.Floats P) (hw : b.WellFormed) :
    (a.diff b).Floats P := by
  induction b using induction generalizing a with
  | map entries ih =>
    obtain ⟨hsorted, hw⟩ := wellFormed_map.mp hw
    cases a with
    | map olds =>
      rw [diff_map, floats_map]
      intro e he
      have hp := Entries.lookup_of_mem (sorted_mapPatch hsorted) he
      rcases mapPatch_cases hsorted hp with ⟨_, _, _, heq⟩ | ⟨_, hnew⟩ | ⟨old, new, hold, hnew, _, heq⟩
      · rw [heq]
        exact floats_string _
      · exact floats_map.mp hb _ (Entries.mem_of_lookup hnew)
      · have hmem := Entries.mem_of_lookup hnew
        rw [heq]
        exact ih _ hmem (floats_map.mp ha _ (Entries.mem_of_lookup hold)) (floats_map.mp hb _ hmem)
          (hw _ hmem)
    | _ => exact hb
  | list items ih =>
    cases a with
    | list olds => exact floats_list.mpr (floats_diffLists (floats_list.mp ha) (floats_list.mp hb))
    | _ => exact hb
  | _ => exact hb

end

theorem Data.merge_diff_data {a b : Value} (ha : a.Data) (hb : b.Data) (hne : ¬(a.isScalar ∧ a == b))
    (path : String) : a.merge (a.diff b) path = .ok b := by
  have hnan : b.NaNFree := fun x hx => (hb.numbers.of_inside hx).1
  have hsettled : b.Settled := normalize_literal hb.dollarFree.literal ""
  obtain ⟨v, hv, heq⟩ := reached b hb.wellFormed hnan hsettled a path ha.wellFormed hne
  have hzero {u : Value} (hu : u.Data) : u.Floats (· ≠ -0.0) := hu.numbers.imp fun _ hx => hx.2
  have hvzero : v.Floats (· ≠ -0.0) :=
    (hereditary_floats _).of_merge (hzero ha) (floats_diff (hzero ha) (hzero hb) hb.wellFormed) hv
  rw [hv, eq_of_equal heq hvzero (hzero hb)]

end Value

end Overlay
