import Overlay.Assembly
import Overlay.Proofs.Corpus
import Overlay.Proofs.Result

/-!
# Taking in documents without parents

A document without parents and selectors joins the outcome, as it is if it is prepared already.
-/

namespace Overlay.Assembly

theorem takeIn_of_parentless {c : Corpus} {patch : Nat} (hparents : c.parents patch = [])
    (hselection : selection (c.data patch) = .ok (c.data patch, .lineage))
    (hnormal : (c.data patch).normalize "" = .ok (c.data patch)) (taken : List Nat) :
    takeIn ⟨c, taken⟩ patch = .ok ⟨c, taken ++ [patch]⟩ := by
  have hnone : (c.setData patch .null).ancestors patch = [] :=
    Corpus.ancestors_of_parents_nil ((c.parents_setData patch .null patch).trans hparents)
  have htargets : targets ⟨c.setData patch .null, taken⟩ patch .lineage = .ok [] := by
    rw [targets, hnone, List.filter_eq_nil_iff.mpr fun _ _ => by simp]
  have hrestored : (c.setData patch .null).setData patch (c.data patch) = c := by
    rw [Corpus.setData_setData, Corpus.setData_data]
  simp only [takeIn, hselection, Result.ok_bind, htargets, hnormal, hrestored]
  rfl

theorem foldlM_add {c : Corpus} : ∀ {order : List Nat},
    (∀ patch ∈ order, ∀ taken, takeIn ⟨c, taken⟩ patch = .ok ⟨c, taken ++ [patch]⟩) →
      ∀ taken, order.foldlM add ⟨c, taken⟩ = .ok ⟨c, taken ++ order⟩
  | [], _, taken => by rw [List.append_nil]; rfl
  | id :: order, h, taken => by
    obtain ⟨hid, h⟩ := List.forall_mem_cons.mp h
    rw [List.foldlM_cons, add, hid taken]
    refine (foldlM_add h _).trans ?_
    rw [List.append_assoc]
    rfl

theorem ofCorpus_of_takeIn {c : Corpus} {order : List Nat}
    (h : ∀ patch ∈ order, ∀ taken, takeIn ⟨c, taken⟩ patch = .ok ⟨c, taken ++ [patch]⟩) :
    ofCorpus c order = .ok ⟨c, order⟩ :=
  foldlM_add h []

end Overlay.Assembly
