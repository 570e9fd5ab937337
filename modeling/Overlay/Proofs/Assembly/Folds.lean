import Overlay.Proofs.Assembly.Lineage

/-!
# What is merged into a document

When layers without selectors are taken in after what they inherit from, a document without parents
ends up as the fold of all that is linked to it, in the order of the layers, and the run succeeds
exactly if these folds do.
-/

namespace Overlay

theorem Value.mergeAll_append (values rest : List Value) :
    mergeAll (values ++ rest) =
      mergeAll values >>= fun merged => rest.foldlM (fun merged v => merge merged v "") merged :=
  List.foldlM_append

theorem Value.mergeAll_concat (values : List Value) (v : Value) :
    mergeAll (values ++ [v]) = mergeAll values >>= fun merged => merged.merge v "" := by
  rw [mergeAll_append]
  simp only [List.foldlM_cons, List.foldlM_nil, bind_pure]

theorem Value.mergeAll_singleton (v : Value) : mergeAll [v] = v.normalize "" := by
  have hmerge : mergeAll [v] = merge .null v "" := by
    simp only [mergeAll, List.foldlM_cons, List.foldlM_nil, bind_pure]
  rw [hmerge]
  cases v <;> rfl

namespace Assembly

open Classical in
/-- A document without parents, and what is merged into it, among the documents below a number. -/
noncomputable def layersOf (c : Corpus) (k id : Nat) : List Value :=
  ((List.range k).filter fun n => n = id ∨ c.Linked n id).map fun n => withoutParent (c.data n)

section
variable {c : Corpus} {k id : Nat}

theorem layersOf_eq {p : Nat → Bool} (h : ∀ n < k, n = id ∨ c.Linked n id ↔ p n = true) :
    layersOf c k id = ((List.range k).filter p).map fun n => withoutParent (c.data n) := by
  refine congrArg (List.map _) (List.filter_congr fun n hn => ?_)
  rw [Bool.eq_iff_iff]
  simp only [decide_eq_true_eq]
  exact h n (List.mem_range.mp hn)

theorem layersOf_succ_of_linked (h : k = id ∨ c.Linked k id) :
    layersOf c (k + 1) id = layersOf c k id ++ [withoutParent (c.data k)] := by
  simp [layersOf, List.range_succ, List.filter_append, h]

theorem layersOf_succ_of_not_linked (h : ¬ (k = id ∨ c.Linked k id)) :
    layersOf c (k + 1) id = layersOf c k id := by
  simp [layersOf, List.range_succ, List.filter_append, h]

theorem layersOf_self (hc : c.Ordered) : layersOf c k k = [] := by
  rw [layersOf, List.map_eq_nil_iff, List.filter_eq_nil_iff]
  intro n hn hlinked
  have hlt := List.mem_range.mp hn
  simp only [decide_eq_true_eq] at hlinked
  rcases hlinked with rfl | hlinked
  · exact lt_irrefl _ hlt
  · exact lt_asymm hlt (hlinked.lt hc)

theorem exists_mergeAll_of_succ (h : ∃ v, Value.mergeAll (layersOf c (k + 1) id) = .ok v) :
    ∃ v, Value.mergeAll (layersOf c k id) = .ok v := by
  obtain ⟨v, hv⟩ := h
  by_cases hlinked : k = id ∨ c.Linked k id
  · rw [layersOf_succ_of_linked hlinked, Value.mergeAll_concat] at hv
    obtain ⟨merged, hmerged, -⟩ := Result.bind_eq_ok.mp hv
    exact ⟨merged, hmerged⟩
  · rw [layersOf_succ_of_not_linked hlinked] at hv
    exact ⟨v, hv⟩

end

/-- The documents below a number have been taken in, and each of the outcome holds its fold. -/
structure Folded (c : Corpus) (k : Nat) (a : Assembly) : Prop where
  upto : Upto c k a
  folds : ∀ id ∈ a.result, Value.mergeAll (layersOf c k id) = .ok (a.corpus.data id)

section
variable {c : Corpus} {k : Nat} {a : Assembly} (h : Folded c k a) (hc : c.Ordered)
  (hk : k < c.size) (hselect : Unselecting (c.data k))
include h hc hk hselect

theorem Folded.step {b : Assembly} (hb : a.takeIn k = .ok b) : Folded c (k + 1) b := by
  refine ⟨h.upto.step hc hk hselect hb, fun id hid => ?_⟩
  by_cases hparents : c.parents k = []
  · rw [h.upto.takeIn_root hc hk hselect hparents] at hb
    obtain ⟨fresh, hfresh, rfl⟩ := Result.map_eq_ok.mp hb
    rcases List.mem_append.mp hid with hid | hid
    · have hlt : id < k := (h.upto.mem_result.mp hid).1
      have hlinked : ¬ (k = id ∨ c.Linked k id) := by
        rintro (rfl | hlinked)
        · exact lt_irrefl _ hlt
        · exact hlinked.parents_ne_nil hc hparents
      rw [layersOf_succ_of_not_linked hlinked, Corpus.data_setData_ne hlt.ne]
      exact h.folds id hid
    · rw [List.mem_singleton] at hid
      subst hid
      have hsize : id < a.corpus.size := by
        rw [h.upto.size]
        exact hk
      rw [layersOf_succ_of_linked (.inl rfl), layersOf_self hc, List.nil_append,
        Value.mergeAll_singleton, Corpus.data_setData_of_lt hsize]
      exact hfresh
  · have hb := h.upto.absorbed hc hk hselect hparents hb
    rw [hb.result] at hid
    have hlt : id < k := (h.upto.mem_result.mp hid).1
    by_cases hlinked : c.Linked k id
    · rw [layersOf_succ_of_linked (.inr hlinked), Value.mergeAll_concat, h.folds id hid]
      exact hb.merged id ((h.upto.mem_heritage hc hk).mpr ⟨hid, hlinked⟩)
    · have hkept : id ∉ a.heritage k := fun hmem =>
        hlinked ((h.upto.mem_heritage hc hk).mp hmem).2
      rw [layersOf_succ_of_not_linked (not_or.mpr ⟨hlt.ne', hlinked⟩),
        hb.kept id hkept hlt.ne]
      exact h.folds id hid

theorem Folded.exists_takeIn
    (hfolds : ∀ id ≤ k, c.parents id = [] → ∃ v, Value.mergeAll (layersOf c (k + 1) id) = .ok v) :
    ∃ b, a.takeIn k = .ok b := by
  by_cases hparents : c.parents k = []
  · obtain ⟨fresh, hfresh⟩ := hfolds k le_rfl hparents
    rw [layersOf_succ_of_linked (.inl rfl), layersOf_self hc, List.nil_append,
      Value.mergeAll_singleton] at hfresh
    rw [h.upto.takeIn_root hc hk hselect hparents, hfresh]
    exact ⟨_, rfl⟩
  · refine Assembly.exists_takeIn (h.upto.selection hselect) (targets_lineage a k)
      (h.upto.heritage_ne_nil hc hk hparents) h.upto.heritage_nodup
      (h.upto.not_mem_heritage hc hk) ?_
    intro id hid
    obtain ⟨hid, hlinked⟩ := (h.upto.mem_heritage hc hk).mp hid
    obtain ⟨hlt, hnil⟩ := h.upto.mem_result.mp hid
    obtain ⟨v, hv⟩ := hfolds id hlt.le hnil
    rw [layersOf_succ_of_linked (.inr hlinked), Value.mergeAll_concat, h.folds id hid] at hv
    exact ⟨v, hv⟩

end

section
variable {c : Corpus} (hc : c.Ordered) (hselect : ∀ id, Unselecting (c.data id))
include hc hselect

theorem folded_of_foldlM : ∀ {k : Nat} {a : Assembly}, k ≤ c.size →
    (List.range k).foldlM add ⟨c, []⟩ = .ok a → Folded c k a
  | 0, a, _, h => by
    cases h
    exact ⟨upto_zero c, nofun⟩
  | k + 1, a, hk, h => by
    obtain ⟨b, hb, hstep⟩ := foldlM_range_succ_eq_ok.mp h
    exact (folded_of_foldlM (Nat.le_of_succ_le hk) hb).step hc hk (hselect k) hstep

theorem exists_foldlM_add : ∀ {k : Nat}, k ≤ c.size →
    (∀ id < k, c.parents id = [] → ∃ v, Value.mergeAll (layersOf c k id) = .ok v) →
      ∃ a, (List.range k).foldlM add ⟨c, []⟩ = .ok a
  | 0, _, _ => ⟨⟨c, []⟩, rfl⟩
  | k + 1, hk, h => by
    obtain ⟨a, ha⟩ := exists_foldlM_add (Nat.le_of_succ_le hk) fun id hid hnil =>
      exists_mergeAll_of_succ (h id (Nat.lt_succ_of_lt hid) hnil)
    have hfolded := folded_of_foldlM hc hselect (Nat.le_of_succ_le hk) ha
    obtain ⟨b, hb⟩ := hfolded.exists_takeIn hc hk (hselect k) fun id hid =>
      h id (Nat.lt_succ_of_le hid)
    exact ⟨b, foldlM_range_succ_eq_ok.mpr ⟨a, ha, hb⟩⟩

theorem exists_ofCorpus_iff : (∃ a, ofCorpus c (List.range c.size) = .ok a) ↔
    ∀ id < c.size, c.parents id = [] → ∃ v, Value.mergeAll (layersOf c c.size id) = .ok v := by
  constructor
  · rintro ⟨a, ha⟩ id hid hnil
    have h := folded_of_foldlM hc hselect le_rfl ha
    exact ⟨_, h.folds id (h.upto.mem_result.mpr ⟨hid, hnil⟩)⟩
  · exact exists_foldlM_add hc hselect le_rfl

end

end Assembly

end Overlay
