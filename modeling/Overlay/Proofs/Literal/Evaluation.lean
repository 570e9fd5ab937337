import Overlay.Proofs.Assembly
import Overlay.Proofs.Literal.Instantiation
import Overlay.Proofs.Literal.Stages

/-!
# Evaluating literal documents

Literal documents of the outcome become outputs as they are, apart from the last step, which
unescapes them: they refer to nothing, are copied once and are one output each. If they have no
parents, they are also assembled as they are.
-/

namespace Overlay

namespace Evaluation

variable (e : Evaluation) {c : Corpus}

theorem expandAll_literal {order : List Nat} (h : ∀ id ∈ order, (c.data id).Literal) :
    e.expandAll ⟨c, order⟩ = .ok ⟨c, order⟩ := by
  have hstep : ∀ ids ⊆ order, ids.foldlM (fun c' id => do
      let expanded ← (Expansion.expand ⟨⟨c, order⟩, id⟩ e.limit (c'.data id) "").mapError
        (Error.defaultDocument (c.label id))
      return c'.setData id expanded) c = (.ok c : Result Corpus) := by
    intro ids
    induction ids with
    | nil => exact fun _ => rfl
    | cons id ids ih =>
      intro hids
      obtain ⟨hid, hids⟩ := List.cons_subset.mp hids
      -- Each document is set to the data that it has, so the corpus stays the same along the fold.
      rw [List.foldlM_cons, Expansion.expand, Expansion.expandWithin,
        Expansion.expandWith_of_expanded (Expansion.expanded_of_literal (h id hid))]
      refine Eq.trans ?_ (ih hids)
      exact congrArg (fun c' => List.foldlM _ c' ids) (c.setData_data id)
  rw [expandAll]
  dsimp only
  rw [hstep order (List.Subset.refl order)]
  rfl

theorem takeSpecs_literal : ∀ {order : List Nat}, (∀ id ∈ order, (c.data id).Literal) →
    takeSpecs c order = (c, order.map fun _ => none)
  | [], _ => rfl
  | id :: rest, h => by
    obtain ⟨hl, h⟩ := List.forall_mem_cons.mp h
    rw [takeSpecs]
    cases hd : c.data id with
    | map entries =>
      rw [hd] at hl
      have hkept : c.setData id (.map (Entries.erase Directive.repeatOver entries)) = c := by
        rw [Entries.erase_of_lookup_eq_none (hl.keys.lookup Directive.repeatOver rfl), ← hd, c.setData_data]
      simp only [hkept, takeSpecs_literal h, Value.entry?, hl.keys.lookup Directive.repeatOver rfl,
        List.map_cons]
    | _ => simp only [takeSpecs_literal h, Value.entry?, List.map_cons]

theorem outputsAt_literal {id : Nat} (h : (c.data id).Literal) (order : List Nat) (limit : Nat)
    (again : Instantiation.Continuation) :
    e.outputsAt ⟨⟨⟨c, order⟩, id⟩, limit⟩ again none = pure [Output.finalize (c.data id)] := by
  have hout : e.outputsOf (some (c.data id)) = .ok [Output.finalize (c.data id)] := by
    rw [e.outputsOf_literalKeys h.keys, e.finish_literal h]
    rfl
  simp only [outputsAt, fanOut, pure_bind, List.flatMapM_cons, List.flatMapM_nil,
    Instantiation.instantiate_literal h, hout]
  rfl

/-- If what is assembled is literal, evaluation unescapes it and does no more. -/
theorem evaluate_literal {order : List Nat} {a : Assembly} (ha : Assembly.ofCorpus c order = .ok a)
    (h : ∀ id ∈ a.result, (a.corpus.data id).Literal) :
    e.evaluate c order = pure (a.result.map fun id => Output.finalize (a.corpus.data id)) := by
  have hcopies : ∀ ids ⊆ a.result, ((ids.zip (ids.map fun _ => none)).flatMapM fun copy =>
      let f : Instantiation.Frame := ⟨⟨⟨a.corpus, a.result⟩, copy.1⟩, e.limit⟩
      e.outputsAt f f.run copy.2) =
        (pure (ids.map fun id => Output.finalize (a.corpus.data id)) : Course (List Value)) := by
    intro ids
    induction ids with
    | nil => exact fun _ => rfl
    | cons id ids ih =>
      intro hids
      obtain ⟨hid, hids⟩ := List.cons_subset.mp hids
      rw [List.map_cons, List.zip_cons_cons, List.flatMapM_cons, ih hids]
      dsimp only
      rw [outputsAt_literal e (h id hid)]
      rfl
  simp only [evaluate, evaluateWith, ha, Course.lift_ok, pure_bind, expandAll_literal e h, outputs,
    takeSpecs_literal h]
  exact hcopies a.result (List.Subset.refl a.result)

end Evaluation

/-! ## Documents without parents -/

structure Corpus.Plain (c : Corpus) : Prop where
  literal : ∀ id, (c.data id).Literal
  parentless : ∀ id, c.parents id = []

theorem Assembly.ofCorpus_plain {c : Corpus} (h : c.Plain) (order : List Nat) :
    ofCorpus c order = .ok ⟨c, order⟩ :=
  ofCorpus_of_takeIn fun id _ => takeIn_of_parentless (h.parentless id)
    (selection_literal (h.literal id)) (Value.normalize_literal (h.literal id) "")

theorem Evaluation.evaluate_plain (e : Evaluation) {c : Corpus} (h : c.Plain) (order : List Nat) :
    e.evaluate c order = pure (order.map fun id => Output.finalize (c.data id)) :=
  evaluate_literal e (Assembly.ofCorpus_plain h order) fun id _ => h.literal id

end Overlay
