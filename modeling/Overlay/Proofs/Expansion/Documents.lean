import Overlay.Evaluation
import Overlay.Proofs.Corpus
import Overlay.Proofs.Expansion.Expanded

/-!
# Expanding all documents

Each document of an outcome gets what its data expands to in the assembly as it was before, even if it
is listed more than once: to expand it again changes nothing.
-/

namespace Overlay.Evaluation

open Expansion (expand)

def ExpandsTo (e : Evaluation) (a : Assembly) (id : Nat) (w : Value) : Prop :=
  expand ⟨a, id⟩ e.limit (a.corpus.data id) "" = .ok w

variable {e : Evaluation} {a : Assembly}

/-- Each document holds its data as before, or expanded. -/
def Between (e : Evaluation) (a : Assembly) (c : Corpus) : Prop :=
  ∀ id, c.data id = a.corpus.data id ∨ e.ExpandsTo a id (c.data id)

theorem expand_null (site : Site) (limit : Nat) : expand site limit .null "" = .ok .null := by
  rw [expand, Expansion.expandWithin]
  simp only [Expansion.expandWith]

theorem Between.step {c : Corpus} (h : Between e a c) {id : Nat} {w : Value}
    (hw : expand ⟨a, id⟩ e.limit (c.data id) "" = .ok w) :
    Between e a (c.setData id w) ∧ e.ExpandsTo a id ((c.setData id w).data id) := by
  have hself : e.ExpandsTo a id w := by
    rcases h id with hd | hd
    · rw [ExpandsTo, ← hd]; exact hw
    · rw [expand, Expansion.expandWithin,
        Expansion.expandWith_of_expanded (Expansion.expanded_of_expandWithin _ hd)] at hw
      cases hw
      exact hd
  have hset : e.ExpandsTo a id ((c.setData id w).data id) := by
    rcases c.data_setData_self id w with hd | ⟨hnull, hd⟩
    · rw [hd]; exact hself
    · rw [hnull, expand_null] at hw
      cases hw
      rw [hd]; exact hself
  refine ⟨fun other => ?_, hset⟩
  by_cases ho : other = id
  · subst ho; exact .inr hset
  · rw [Corpus.data_setData_ne ho]; exact h other

theorem expandAll_fold : ∀ {ids : List Nat} {c c' : Corpus}, Between e a c →
    (ids.foldlM (fun c id => do
      let expanded ← (expand ⟨a, id⟩ e.limit (c.data id) "").mapError
        (Error.defaultDocument (a.corpus.label id))
      return c.setData id expanded) c : Result Corpus) = .ok c' →
    ∀ id, id ∈ ids ∨ e.ExpandsTo a id (c.data id) → e.ExpandsTo a id (c'.data id)
  | [], c, c', _, h, id, hid => by
    cases h
    exact hid.resolve_left List.not_mem_nil
  | i :: ids, c, c', hc, h, id, hid => by
    rw [List.foldlM_cons] at h
    cases hw : expand ⟨a, i⟩ e.limit (c.data i) "" with
    | error err => rw [hw] at h; cases h
    | ok w =>
      rw [hw] at h
      obtain ⟨hnext, hi⟩ := hc.step hw
      refine expandAll_fold hnext h id ?_
      by_cases heq : id = i
      · subst heq
        exact .inr hi
      · rw [Corpus.data_setData_ne heq]
        exact hid.imp_left fun hm => (List.mem_cons.mp hm).resolve_left heq

/-- Every document of the outcome holds what its data expands to. -/
theorem expandsTo_of_expandAll {b : Assembly} (h : e.expandAll a = .ok b) {id : Nat}
    (hid : id ∈ a.result) : e.ExpandsTo a id (b.corpus.data id) := by
  obtain ⟨c, hc, hb⟩ := Result.bind_eq_ok.mp h
  cases hb
  exact expandAll_fold (fun _ => .inl rfl) hc id (.inl hid)

end Overlay.Evaluation
