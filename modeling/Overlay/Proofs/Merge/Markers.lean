import Mathlib.Data.List.Forall2
import Overlay.Proofs.Merge.Items
import Overlay.Proofs.Merge.Settled
import Overlay.Proofs.Value.Inside

/-!
# Markers

A marker in a patch says what a merge is to do: an entry deletes its key or flags a wholesale
replacement, and an element of a list is an instruction to the list. The values without markers are
the settled ones.
-/

namespace Overlay.Value

/-- Whether an entry neither deletes its key nor is a flag of wholesale replacement. -/
def isPlainEntry (e : String × Value) : Bool :=
  !isReplaceFlag e.1 e.2 && !e.2.isString Directive.delete

def instructionKeys : List String :=
  [Directive.delete, Directive.matchOne, Directive.matchAny]

/-- Whether an element of a list does something to the list instead of being appended to it. -/
def isInstruction : Value → Bool
  | .string s => s == Directive.replace
  | .map entries => instructionKeys.any fun key => Entries.has key entries
  | _ => false

def HoldsNoMarker : Value → Prop
  | .map entries => ∀ e ∈ entries, isPlainEntry e = true
  | .list items => ∀ x ∈ items, isInstruction x = false
  | _ => True

instance : DecidablePred HoldsNoMarker
  | .map entries => inferInstanceAs (Decidable (∀ e ∈ entries, isPlainEntry e = true))
  | .list items => inferInstanceAs (Decidable (∀ x ∈ items, isInstruction x = false))
  | .null | .bool _ | .int _ | .float _ | .string _ => isTrue trivial

/-- At every depth no map holds a flag of wholesale replacement or deletes a key, and no list holds an
instruction. -/
def MarkerFree : Value → Prop :=
  Everywhere HoldsNoMarker

instance (v : Value) : Decidable v.MarkerFree :=
  inferInstanceAs (Decidable (Everywhere _ v))

/-! ## Entries and elements -/

theorem markerFree_map {entries : Entries Value} : (Value.map entries).MarkerFree ↔
    ∀ e ∈ entries, isPlainEntry e = true ∧ e.2.MarkerFree :=
  everywhere_map.trans forall₂_and.symm

theorem markerFree_list {items : List Value} : (Value.list items).MarkerFree ↔
    ∀ x ∈ items, isInstruction x = false ∧ x.MarkerFree :=
  everywhere_list.trans forall₂_and.symm

theorem markerFree_scalar {v : Value} (hm : ∀ entries, v ≠ .map entries)
    (hl : ∀ items, v ≠ .list items) : v.MarkerFree := by
  refine (everywhere_scalar hm hl).mpr ?_
  cases v with
  | map entries => exact absurd rfl (hm entries)
  | list items => exact absurd rfl (hl items)
  | _ => trivial

theorem isPlainEntry_iff {e : String × Value} : isPlainEntry e = true ↔
    isReplaceFlag e.1 e.2 = false ∧ e.2.isString Directive.delete = false := by
  simp [isPlainEntry]

theorem isInstruction_map {entries : Entries Value} : isInstruction (.map entries) = false ↔
    Entries.has Directive.delete entries = false ∧ Entries.has Directive.matchOne entries = false ∧
      Entries.has Directive.matchAny entries = false := by
  simp [isInstruction, instructionKeys]

theorem isInstruction_of_not_map {v : Value} (h : isReplaceMarker v = false)
    (hm : ∀ entries, v ≠ .map entries) : isInstruction v = false := by
  cases v with
  | map entries => exact absurd rfl (hm entries)
  | string s => exact h
  | _ => rfl

theorem isInstruction_map_iff_keys {entries : Entries Value} : isInstruction (.map entries) = false ↔
    ∀ e ∈ entries, e.1 ∉ instructionKeys := by
  simp only [isInstruction, List.any_eq_false, Bool.not_eq_true, Entries.has_eq_false_iff]
  exact ⟨fun h e he hk => h e.1 hk e he rfl, fun h key hkey e he heq => h e he (heq ▸ hkey)⟩

/-! ## Settled values -/

theorem mergeItems_plain {v : Value} (h : isInstruction v = false) (hr : isReplaceMarker v = false)
    (items : List Value) (path : String) : mergeItems items [v] path =
      (fun fresh => items ++ [fresh]) <$> v.normalize (KeyPath.item path items.length) := by
  cases v with
  | map patch =>
    obtain ⟨hdelete, hone, hany⟩ := isInstruction_map.mp h
    simp only [mergeItems, normalize, hr, hdelete, hone, hany]
    cases freshEntries [] patch (KeyPath.item path items.length) <;> rfl
  | list patch =>
    simp only [mergeItems, normalize, hr]
    cases mergeItems [] patch (KeyPath.item path items.length) <;> rfl
  | _ =>
    simp only [mergeItems, normalize, hr]
    rfl

theorem length_mergeItems_le {v : Value} (h : isInstruction v = true ∨ isReplaceMarker v = true)
    {items r : List Value} {path : String} (hr : mergeItems items [v] path = .ok r) :
    r.length ≤ items.length := by
  cases v with
  | map patch =>
    obtain ⟨next, hacts, hr⟩ := exists_acts hr
    rw [mergeItems_nil] at hr
    cases hr
    cases hacts with
    | marks _ => exact Nat.le_refl _
    | deletes _ _ hsublist => exact hsublist.length_le
    | updates _ _ _ hupdated => exact (length_updateAt hupdated).le
    | appends hmarker hdelete hselect _ =>
      simp only [isSelecting, Bool.or_eq_false_iff] at hselect
      rw [isInstruction_map.mpr ⟨hdelete, hselect⟩, hmarker] at h
      simp at h
  | string s =>
    have hmarker : isReplaceMarker (.string s) = true := by simpa [isInstruction, isReplaceMarker] using h
    simp only [mergeItems, hmarker] at hr
    cases hr
    exact Nat.le_refl _
  | _ => simp [isInstruction, isReplaceMarker] at h

/-- A list that is merged appends an element for each of its own, or comes out too short. -/
theorem mergeItems_cases {path : String} : ∀ {patch items r : List Value},
    mergeItems items patch path = .ok r → r.length < items.length + patch.length ∨
      ∃ fresh, r = items ++ fresh ∧
        List.Forall₂ (fun v w => isInstruction v = false ∧ ∃ p, v.normalize p = .ok w) patch fresh
  | [], items, r, h => by
    rw [mergeItems_nil] at h
    cases h
    exact .inr ⟨[], (List.append_nil _).symm, .nil⟩
  | v :: rest, items, r, h => by
    rw [mergeItems_cons] at h
    obtain ⟨merged, hmerged, h⟩ := Result.bind_eq_ok.mp h
    have hrest := mergeItems_cases h
    by_cases hv : isInstruction v = true ∨ isReplaceMarker v = true
    · have hle := length_mergeItems_le hv hmerged
      refine .inl ?_
      rw [List.length_cons]
      rcases hrest with hlt | ⟨fresh, rfl, hfresh⟩
      · omega
      · rw [List.length_append, hfresh.length_eq.symm]
        omega
    · obtain ⟨hinstruction, hmarker⟩ := not_or.mp hv
      rw [Bool.not_eq_true] at hinstruction hmarker
      rw [mergeItems_plain hinstruction hmarker] at hmerged
      obtain ⟨w, hw, rfl⟩ := Result.map_eq_ok.mp hmerged
      rcases hrest with hlt | ⟨fresh, rfl, hfresh⟩
      · refine .inl ?_
        rw [List.length_append, List.length_singleton] at hlt
        rw [List.length_cons]
        omega
      · refine .inr ⟨w :: fresh, ?_, .cons ⟨hinstruction, _, hw⟩ hfresh⟩
        rw [List.append_assoc, List.singleton_append]

theorem Settled.elements {items : List Value} (h : (Value.list items).Settled) :
    ∀ x ∈ items, isInstruction x = false ∧ x.Settled := by
  rcases mergeItems_cases (h.items "") with hlt | ⟨fresh, hfresh, hall⟩
  · rw [List.length_nil, Nat.zero_add] at hlt
    exact absurd hlt (lt_irrefl _)
  · rw [List.nil_append] at hfresh
    subst hfresh
    intro x hx
    obtain ⟨hinstruction, p, hp⟩ := List.forall₂_same.mp hall x hx
    exact ⟨hinstruction, normalize_ok_anywhere hp ""⟩

theorem Settled.markerFree {v : Value} (h : v.Settled) : v.MarkerFree := by
  induction v using induction with
  | map entries ih =>
    refine markerFree_map.mpr fun e he => ?_
    obtain ⟨hflag, hdelete, hsettled⟩ := h.entries e he
    exact ⟨isPlainEntry_iff.mpr ⟨hflag, hdelete⟩, ih e he hsettled⟩
  | list items ih =>
    refine markerFree_list.mpr fun x hx => ?_
    obtain ⟨hinstruction, hsettled⟩ := h.elements x hx
    exact ⟨hinstruction, ih x hx hsettled⟩
  | _ => exact markerFree_scalar (by simp) (by simp)

theorem isReplaceMarker_of_markerFree {v : Value} (h : v.MarkerFree) (hi : isInstruction v = false) :
    isReplaceMarker v = false := by
  cases v with
  | string s => exact hi
  | map entries =>
    unfold isReplaceMarker
    split
    · rename_i heq
      cases heq
    · rename_i k heq
      cases heq
      obtain ⟨hflag, -⟩ := isPlainEntry_iff.mp (markerFree_map.mp h _ List.mem_cons_self).1
      exact hflag
    · rfl
  | _ => rfl

theorem freshEntries_of_plain : ∀ {patch : Entries Value},
    (∀ e ∈ patch, isPlainEntry e = true ∧ ∀ path, e.2.normalize path = .ok e.2) → ∀ path,
      freshEntries [] patch path = .ok patch
  | [], _, _ => by rw [freshEntries]
  | (k, v) :: rest, h, path => by
    obtain ⟨⟨hplain, hv⟩, hrest⟩ := List.forall_mem_cons.mp h
    obtain ⟨hflag, hdelete⟩ := isPlainEntry_iff.mp hplain
    simp only at hflag hdelete hv
    simp only [freshEntries_cons, hflag, hdelete, hv, freshEntries_of_plain hrest]
    rfl

theorem mergeItems_of_plain : ∀ {patch : List Value},
    (∀ v ∈ patch, isInstruction v = false ∧ isReplaceMarker v = false ∧
      ∀ path, v.normalize path = .ok v) → ∀ items path,
      mergeItems items patch path = .ok (items ++ patch)
  | [], _, items, path => by rw [mergeItems_nil, List.append_nil]
  | v :: rest, h, items, path => by
    obtain ⟨⟨hinstruction, hmarker, hv⟩, hrest⟩ := List.forall_mem_cons.mp h
    rw [mergeItems_cons, mergeItems_plain hinstruction hmarker, hv]
    refine (mergeItems_of_plain hrest _ path).trans ?_
    rw [List.append_assoc, List.singleton_append]

theorem MarkerFree.normalize {v : Value} (h : v.MarkerFree) (path : String) :
    v.normalize path = .ok v := by
  induction v using induction generalizing path with
  | map entries ih =>
    have h := markerFree_map.mp h
    rw [Value.normalize, freshEntries_of_plain fun e he => ⟨(h e he).1, ih e he (h e he).2⟩]
    rfl
  | list items ih =>
    have h := markerFree_list.mp h
    rw [Value.normalize, mergeItems_of_plain fun x hx =>
      ⟨(h x hx).1, isReplaceMarker_of_markerFree (h x hx).2 (h x hx).1, ih x hx (h x hx).2⟩]
    rfl
  | _ => simp only [Value.normalize]

end Overlay.Value
