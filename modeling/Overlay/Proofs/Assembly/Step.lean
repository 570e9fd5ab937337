import Overlay.Assembly
import Overlay.Proofs.Entries
import Overlay.Proofs.Lineage
import Overlay.Proofs.Result

/-!
# What taking in a document does

A document that selects nothing joins the outcome, prepared (`takeIn_of_nil`). Otherwise it is merged
into each document that it selects, which gets it as a parent, and all others stay as they are
(`takeIn_of_ne_nil`, `Merged`).
-/

namespace Overlay

theorem Corpus.ancestors_setData (c : Corpus) (id : Nat) (v : Value) (other : Nat) :
    (c.setData id v).ancestors other = c.ancestors other := by
  have hvisit : ∀ unvisited pending : List Nat,
      (c.setData id v).visit unvisited pending = c.visit unvisited pending := by
    intro unvisited pending
    induction unvisited, pending using Corpus.visit.induct c with
    | case1 unvisited => rw [visit, visit]
    | case2 unvisited next rest h ih =>
      rw [visit, visit, if_pos h, if_pos h, c.parents_setData, ih]
    | case3 unvisited next rest h ih => rw [visit, visit, if_neg h, if_neg h, ih]
  simp only [ancestors, size_setData, c.parents_setData, hvisit]

namespace Assembly

/-! ## Merging into targets -/

/-- One corpus comes from another when the data of a patch is merged into some documents. -/
structure Merged (patch : Nat) (data : Value) (targets : List Nat) (c d : Corpus) : Prop where
  size : d.size = c.size
  merged : ∀ id ∈ targets, (c.data id).merge data "" = .ok (d.data id)
  kept : ∀ id, id ∉ targets → d.data id = c.data id
  parents : ∀ id n, n ∈ d.parents id ↔ n ∈ c.parents id ∨ id ∈ targets ∧ n = patch

variable {patch : Nat} {data : Value}

theorem mergeInto_eq (c : Corpus) (target : Nat) : mergeInto patch data c target =
    (fun v => (c.setData target v).addParent target patch) <$> (c.data target).merge data "" := by
  unfold mergeInto
  cases (c.data target).merge data "" <;> rfl

theorem merged_of_foldlM : ∀ {targets : List Nat} {c d : Corpus}, targets.Nodup →
    (∀ id ∈ targets, id < c.size) → targets.foldlM (mergeInto patch data) c = .ok d →
      Merged patch data targets c d
  | [], c, d, _, _, h => by
    cases h
    exact ⟨rfl, nofun, fun _ _ => rfl, fun id n => by simp⟩
  | target :: rest, c, d, hnodup, hlt, h => by
    obtain ⟨hfresh, hnodup⟩ := List.nodup_cons.mp hnodup
    obtain ⟨htarget, hlt⟩ := List.forall_mem_cons.mp hlt
    rw [List.foldlM_cons, mergeInto_eq] at h
    obtain ⟨e, he, h⟩ := Result.bind_eq_ok.mp h
    obtain ⟨v, hv, rfl⟩ := Result.map_eq_ok.mp he
    have ih := merged_of_foldlM hnodup (by simpa using hlt) h
    have hother : ∀ id, id ≠ target →
        ((c.setData target v).addParent target patch).data id = c.data id := by
      intro id hid
      rw [Corpus.data_addParent, Corpus.data_setData_ne hid]
    constructor
    · simpa using ih.size
    · intro id hid
      rcases List.mem_cons.mp hid with rfl | hid
      · rw [ih.kept id hfresh, Corpus.data_addParent, Corpus.data_setData_of_lt htarget]
        exact hv
      · have hne : id ≠ target := fun h => hfresh (h ▸ hid)
        rw [← hother id hne]
        exact ih.merged id hid
    · intro id hid
      obtain ⟨hne, hid⟩ := not_or.mp (fun h => hid (List.mem_cons.mpr h))
      rw [ih.kept id hid, hother id hne]
    · intro id n
      rw [ih.parents, Corpus.mem_parents_addParent, Corpus.parents_setData, List.mem_cons]
      simp only [Corpus.size_setData, htarget, true_and]
      constructor
      · rintro ((hn | ⟨hid, hn⟩) | ⟨hid, hn⟩)
        · exact .inl hn
        · exact .inr ⟨.inl hid, hn⟩
        · exact .inr ⟨.inr hid, hn⟩
      · rintro (hn | ⟨hid | hid, hn⟩)
        · exact .inl (.inl hn)
        · exact .inl (.inr ⟨hid, hn⟩)
        · exact .inr ⟨hid, hn⟩

theorem exists_foldlM_mergeInto : ∀ {targets : List Nat} {c : Corpus}, targets.Nodup →
    (∀ id ∈ targets, ∃ v, (c.data id).merge data "" = .ok v) →
      ∃ d, targets.foldlM (mergeInto patch data) c = .ok d
  | [], c, _, _ => ⟨c, rfl⟩
  | target :: rest, c, hnodup, h => by
    obtain ⟨hfresh, hnodup⟩ := List.nodup_cons.mp hnodup
    obtain ⟨⟨v, hv⟩, h⟩ := List.forall_mem_cons.mp h
    rw [List.foldlM_cons, mergeInto_eq, hv]
    apply exists_foldlM_mergeInto hnodup
    intro id hid
    have hne : id ≠ target := fun h => hfresh (h ▸ hid)
    rw [Corpus.data_addParent, Corpus.data_setData_ne hne]
    exact h id hid

/-! ## Taking in -/

section
variable {a : Assembly} {selector : Selector}
  (hselection : selection (a.corpus.data patch) = .ok (data, selector))
include hselection

theorem takeIn_of_nil
    (htargets : targets ⟨a.corpus.setData patch .null, a.result⟩ patch selector = .ok []) :
    a.takeIn patch = (fun fresh => ⟨a.corpus.setData patch fresh, a.result ++ [patch]⟩) <$>
      data.normalize "" := by
  simp only [takeIn, hselection, Result.ok_bind, htargets, Corpus.setData_setData]
  cases data.normalize "" <;> rfl

theorem takeIn_of_ne_nil {targets : List Nat}
    (htargets : Assembly.targets ⟨a.corpus.setData patch .null, a.result⟩ patch selector =
      .ok targets) (hne : targets ≠ []) :
    a.takeIn patch = (fun merged => ⟨merged.setData patch data, a.result⟩) <$>
      targets.foldlM (mergeInto patch data) (a.corpus.setData patch .null) := by
  simp only [takeIn, hselection, Result.ok_bind, htargets]
  cases targets with
  | nil => exact absurd rfl hne
  | cons target rest =>
    generalize List.foldlM (mergeInto patch data) _ (target :: rest) = merged
    cases merged <;> rfl

/-- One assembly comes from another when a patch is merged into some documents. -/
structure Absorbed (patch : Nat) (data : Value) (targets : List Nat) (a b : Assembly) : Prop where
  result : b.result = a.result
  size : b.corpus.size = a.corpus.size
  merged : ∀ id ∈ targets, (a.corpus.data id).merge data "" = .ok (b.corpus.data id)
  kept : ∀ id, id ∉ targets → id ≠ patch → b.corpus.data id = a.corpus.data id
  parents : ∀ id n, n ∈ b.corpus.parents id ↔
    n ∈ a.corpus.parents id ∨ id ∈ targets ∧ n = patch

theorem absorbed_of_takeIn {targets : List Nat} {b : Assembly}
    (htargets : Assembly.targets ⟨a.corpus.setData patch .null, a.result⟩ patch selector =
      .ok targets) (hne : targets ≠ []) (hnodup : targets.Nodup)
    (hlt : ∀ id ∈ targets, id < a.corpus.size) (hpatch : patch ∉ targets)
    (h : a.takeIn patch = .ok b) : Absorbed patch data targets a b := by
  rw [takeIn_of_ne_nil hselection htargets hne] at h
  obtain ⟨merged, hmerged, rfl⟩ := Result.map_eq_ok.mp h
  have hm := merged_of_foldlM hnodup (by simpa using hlt) hmerged
  refine ⟨rfl, ?_, fun id hid => ?_, fun id hid hne => ?_, fun id n => ?_⟩
  · simpa using hm.size
  · have hne : id ≠ patch := fun h => hpatch (h ▸ hid)
    have hid := hm.merged id hid
    rw [Corpus.data_setData_ne hne] at hid
    rw [hid, Corpus.data_setData_ne hne]
  · rw [Corpus.data_setData_ne hne, hm.kept id hid, Corpus.data_setData_ne hne]
  · rw [Corpus.parents_setData, hm.parents, Corpus.parents_setData]

theorem exists_takeIn {targets : List Nat}
    (htargets : Assembly.targets ⟨a.corpus.setData patch .null, a.result⟩ patch selector =
      .ok targets) (hne : targets ≠ []) (hnodup : targets.Nodup) (hpatch : patch ∉ targets)
    (h : ∀ id ∈ targets, ∃ v, (a.corpus.data id).merge data "" = .ok v) :
    ∃ b, a.takeIn patch = .ok b := by
  rw [takeIn_of_ne_nil hselection htargets hne]
  obtain ⟨merged, hmerged⟩ : ∃ merged, targets.foldlM (mergeInto patch data)
      (a.corpus.setData patch .null) = .ok merged := by
    apply exists_foldlM_mergeInto hnodup
    intro id hid
    have hne : id ≠ patch := fun h => hpatch (h ▸ hid)
    rw [Corpus.data_setData_ne hne]
    exact h id hid
  rw [hmerged]
  exact ⟨_, rfl⟩

end

theorem add_eq_ok {a b : Assembly} : a.add patch = .ok b ↔ a.takeIn patch = .ok b :=
  Result.mapError_eq_ok

/-! ## Documents without selectors -/

/-- A document says nothing of what it is merged into. -/
def Unselecting (v : Value) : Prop :=
  v.entry? Directive.matchOne = none ∧ v.entry? Directive.matchAny = none

instance (v : Value) : Decidable (Unselecting v) :=
  inferInstanceAs (Decidable (_ ∧ _))

def withoutParent : Value → Value
  | .map entries => .map (Entries.without [Directive.parent] entries)
  | v => v

/-- The documents of the outcome that a document inherits from. -/
def heritage (a : Assembly) (patch : Nat) : List Nat :=
  a.result.filter (a.corpus.ancestors patch).contains

theorem selection_of_unselecting {v : Value} (h : Unselecting v) :
    selection v = .ok (withoutParent v, .lineage) := by
  cases v with
  | map entries =>
    obtain ⟨hone, hany⟩ := h
    simp only [Value.entry?] at hone hany
    have hwithout : Entries.without [Directive.parent, Directive.matchOne, Directive.matchAny] entries =
        Entries.without [Directive.parent] entries := by
      apply List.filter_congr
      rintro ⟨k, v⟩ he
      have h₁ : k ≠ Directive.matchOne := Entries.lookup_eq_none_iff.mp hone _ he
      have h₂ : k ≠ Directive.matchAny := Entries.lookup_eq_none_iff.mp hany _ he
      simp [h₁, h₂]
    simp only [selection, hone, hany, hwithout, withoutParent]
  | _ => rfl

theorem targets_lineage (a : Assembly) (patch : Nat) :
    targets ⟨a.corpus.setData patch .null, a.result⟩ patch .lineage = .ok (a.heritage patch) := by
  rw [targets, a.corpus.ancestors_setData]
  rfl

theorem mem_heritage {a : Assembly} {patch id : Nat} (hlt : ∀ id ∈ a.result, id < a.corpus.size) :
    id ∈ a.heritage patch ↔ id ∈ a.result ∧ a.corpus.Inherits patch id ∧ id ≠ patch := by
  simp only [heritage, List.mem_filter, List.contains_iff_mem]
  constructor
  · rintro ⟨hid, h⟩
    obtain ⟨h, -, hne⟩ := Corpus.inherits_of_mem_ancestors h
    exact ⟨hid, h, hne⟩
  · rintro ⟨hid, h, hne⟩
    exact ⟨hid, Corpus.mem_ancestors_of_inherits h (hlt id hid) hne⟩

end Assembly

end Overlay
