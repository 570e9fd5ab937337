import Mathlib.Logic.Relation
import Overlay.Proofs.Corpus

/-!
# Lineage

`c.Inherits a b` says that parents lead from `a` to `b`, in one step or more. The walk that collects
the ancestors of a document finds what it inherits from and nothing else.
-/

namespace Overlay.Corpus

open Relation (TransGen)

/-- A document inherits from all that its parents lead to. -/
def Inherits (c : Corpus) : Nat → Nat → Prop :=
  TransGen fun id parent => parent ∈ c.parents id

/-! ## What a walk visits -/

theorem mem_unvisited_of_mem_visit {c : Corpus} {unvisited pending : List Nat} {id : Nat}
    (h : id ∈ c.visit unvisited pending) : id ∈ unvisited := by
  induction unvisited, pending using visit.induct c with
  | case1 unvisited =>
    rw [visit] at h
    cases h
  | case2 unvisited next rest hnext ih =>
    rw [visit, if_pos hnext, List.mem_cons] at h
    rcases h with rfl | h
    · exact hnext
    · exact List.mem_of_mem_erase (ih h)
  | case3 unvisited next rest hnext ih =>
    rw [visit, if_neg hnext] at h
    exact ih h

theorem mem_visit_of_pending {c : Corpus} {unvisited pending : List Nat} {id : Nat}
    (hid : id ∈ pending) (hu : id ∈ unvisited) : id ∈ c.visit unvisited pending := by
  induction unvisited, pending using visit.induct c with
  | case1 unvisited => cases hid
  | case2 unvisited next rest hnext ih =>
    rw [visit, if_pos hnext, List.mem_cons]
    by_cases hne : id = next
    · exact .inl hne
    · have hrest : id ∈ rest := (List.mem_cons.mp hid).resolve_left hne
      exact .inr (ih (List.mem_append_right _ hrest) ((List.mem_erase_of_ne hne).mpr hu))
  | case3 unvisited next rest hnext ih =>
    rw [visit, if_neg hnext]
    have hne : id ≠ next := fun h => hnext (h ▸ hu)
    exact ih ((List.mem_cons.mp hid).resolve_left hne) hu

/-- What is visited is closed under parents, as far as these are unvisited. -/
theorem mem_visit_of_parent {c : Corpus} {unvisited pending : List Nat} {id parent : Nat}
    (hid : id ∈ c.visit unvisited pending) (hparent : parent ∈ c.parents id)
    (hu : parent ∈ unvisited) : parent ∈ c.visit unvisited pending := by
  induction unvisited, pending using visit.induct c with
  | case1 unvisited =>
    rw [visit] at hid
    cases hid
  | case2 unvisited next rest hnext ih =>
    rw [visit, if_pos hnext, List.mem_cons] at hid ⊢
    by_cases hne : parent = next
    · exact .inl hne
    · have hu' : parent ∈ unvisited.erase next := (List.mem_erase_of_ne hne).mpr hu
      refine .inr ?_
      rcases hid with rfl | hid
      · exact mem_visit_of_pending (List.mem_append_left _ hparent) hu'
      · exact ih hid hu'
  | case3 unvisited next rest hnext ih =>
    rw [visit, if_neg hnext] at hid ⊢
    exact ih hid hu

theorem exists_pending_of_mem_visit {c : Corpus} {unvisited pending : List Nat} {id : Nat}
    (h : id ∈ c.visit unvisited pending) : ∃ p ∈ pending, p = id ∨ c.Inherits p id := by
  induction unvisited, pending using visit.induct c with
  | case1 unvisited =>
    rw [visit] at h
    cases h
  | case2 unvisited next rest hnext ih =>
    rw [visit, if_pos hnext, List.mem_cons] at h
    rcases h with rfl | h
    · exact ⟨id, List.mem_cons_self, .inl rfl⟩
    · obtain ⟨p, hp, hpid⟩ := ih h
      rcases List.mem_append.mp hp with hp | hp
      · refine ⟨next, List.mem_cons_self, .inr ?_⟩
        rcases hpid with rfl | hpid
        · exact .single hp
        · exact .head hp hpid
      · exact ⟨p, List.mem_cons_of_mem _ hp, hpid⟩
  | case3 unvisited next rest hnext ih =>
    rw [visit, if_neg hnext] at h
    obtain ⟨p, hp, hpid⟩ := ih h
    exact ⟨p, List.mem_cons_of_mem _ hp, hpid⟩

/-! ## Ancestors -/

theorem inherits_of_mem_ancestors {c : Corpus} {id other : Nat} (h : other ∈ c.ancestors id) :
    c.Inherits id other ∧ other < c.size ∧ other ≠ id := by
  simp only [ancestors, List.mem_filter, List.mem_range, List.contains_iff_mem] at h
  obtain ⟨hlt, hvisited⟩ := h
  refine ⟨?_, hlt, ?_⟩
  · obtain ⟨p, hp, hpid⟩ := exists_pending_of_mem_visit hvisited
    rcases hpid with rfl | hpid
    · exact .single hp
    · exact .head hp hpid
  · have hu := mem_unvisited_of_mem_visit hvisited
    exact (List.nodup_range.mem_erase_iff.mp hu).1

theorem mem_ancestors_of_inherits {c : Corpus} {id other : Nat} (h : c.Inherits id other)
    (hlt : other < c.size) (hne : other ≠ id) : other ∈ c.ancestors id := by
  have unvisited {n : Nat} (hlt : n < c.size) (hne : n ≠ id) : n ∈ (List.range c.size).erase id :=
    (List.mem_erase_of_ne hne).mpr (List.mem_range.mpr hlt)
  suffices hvisited : other ∈ c.visit ((List.range c.size).erase id) (c.parents id) by
    simp only [ancestors, List.mem_filter, List.mem_range, List.contains_iff_mem]
    exact ⟨hlt, hvisited⟩
  induction h with
  | single hp => exact mem_visit_of_pending hp (unvisited hlt hne)
  | @tail between last _ hp ih =>
    by_cases hb : between = id
    -- A way that leads back to the document starts anew from its parents, which are all pending.
    · subst hb
      exact mem_visit_of_pending hp (unvisited hlt hne)
    · have hbetween : between < c.size := by
        refine Nat.lt_of_not_le fun hle => ?_
        rw [parents_of_size_le hle] at hp
        cases hp
      exact mem_visit_of_parent (ih hbetween hb) hp (unvisited hlt hne)

theorem Inherits.mono {c d : Corpus} (h : ∀ id, ∀ p ∈ c.parents id, p ∈ d.parents id)
    {id other : Nat} (hc : c.Inherits id other) : d.Inherits id other :=
  TransGen.mono (fun a b hb => h a b hb) _ _ hc

end Overlay.Corpus
