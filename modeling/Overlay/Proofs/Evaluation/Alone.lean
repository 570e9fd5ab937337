import Overlay.Evaluation
import Overlay.Proofs.Assembly
import Overlay.Proofs.Expansion.Expanded
import Overlay.Proofs.Literal.Stages
import Overlay.Proofs.Merge.Markers

/-!
# A document on its own

A document without parents, patterns, markers, references and copies comes to its instantiation as it
is. What becomes of it is up to instantiation and the output.
-/

namespace Overlay

/-- The corpus of one document without parents. -/
def Corpus.alone (label : String) (v : Value) : Corpus :=
  ⟨[⟨label, v, []⟩]⟩

/-- What lets a document reach its instantiation as it is. -/
structure Value.Inert (v : Value) : Prop where
  selection : Assembly.selection v = .ok (v, .lineage)
  markerFree : v.MarkerFree
  expanded : Expansion.Expanded v
  uncopied : v.entry? Directive.repeatOver = none

theorem Value.LiteralKeys.inert {v : Value} (hk : v.LiteralKeys)
    (hdelete : Everywhere (fun u => u.isString Directive.delete = false) v)
    (hreplace : Everywhere (fun u => u.isString Directive.replace = false) v)
    (hs : ∀ s, Inside (.string s) v → Expansion.stringReference? s = none) : v.Inert := by
  refine ⟨Assembly.selection_literalKeys hk, hk.markerFree hdelete hreplace,
    Expansion.expanded_of_literalKeys hk hs, ?_⟩
  cases v with
  | map entries => exact hk.lookup Directive.repeatOver rfl
  | _ => rfl

namespace Evaluation

variable (e : Evaluation) (label : String) {v : Value}

/-- The frame in which a document on its own is instantiated. -/
def aloneFrame (v : Value) : Instantiation.Frame :=
  ⟨⟨⟨.alone label v, [0]⟩, 0⟩, e.limit⟩

theorem ofCorpus_alone (h : v.Inert) :
    Assembly.ofCorpus (.alone label v) [0] = .ok ⟨.alone label v, [0]⟩ := by
  apply Assembly.ofCorpus_of_takeIn
  intro patch hpatch
  obtain rfl := List.mem_singleton.mp hpatch
  exact Assembly.takeIn_of_parentless rfl h.selection (h.markerFree.normalize "")

theorem expandAll_alone (h : v.Inert) :
    e.expandAll ⟨.alone label v, [0]⟩ = .ok ⟨.alone label v, [0]⟩ := by
  have hexpand : Expansion.expand ⟨⟨.alone label v, [0]⟩, 0⟩ e.limit v "" = .ok v := by
    rw [Expansion.expand, Expansion.expandWithin, Expansion.expandWith_of_expanded h.expanded]
  have hdata : (Corpus.alone label v).data 0 = v := rfl
  have hstep : (Expansion.expand ⟨⟨.alone label v, [0]⟩, 0⟩ e.limit ((Corpus.alone label v).data 0)
      "").mapError (Error.defaultDocument ((Corpus.alone label v).label 0)) = .ok v := by
    rw [hdata, hexpand]
    rfl
  have hkept : (Corpus.alone label v).setData 0 v = .alone label v := rfl
  simp only [expandAll, List.foldlM_cons, List.foldlM_nil, hstep, Result.ok_bind]
  rfl

theorem takeSpecs_alone (h : v.Inert) :
    takeSpecs (.alone label v) [0] = (.alone label v, [none]) := by
  have hdata : (Corpus.alone label v).data 0 = v := rfl
  have hnone := h.uncopied
  simp only [takeSpecs, hdata, hnone]
  cases v with
  | map entries =>
    simp only [Entries.erase_of_lookup_eq_none hnone]
    rfl
  | _ => rfl

/-- The outputs of a document on its own are those of its instantiation. -/
theorem evaluate_alone (h : v.Inert) :
    e.evaluate (.alone label v) [0] = Course.mapError (Error.defaultDocument label) (do
      e.outputsOf (← Instantiation.instantiate (e.aloneFrame label v) (e.aloneFrame label v).run v
        e.environment "")) := by
  simp only [evaluate, evaluateWith, ofCorpus_alone label h, Course.lift_ok, pure_bind,
    expandAll_alone e label h, outputs, takeSpecs_alone label h, List.zip_cons_cons, List.zip_nil_left,
    List.flatMapM_cons, List.flatMapM_nil, outputsAt, fanOut, pure_bind,
    List.append_nil, bind_pure]
  rfl

end Evaluation

end Overlay
