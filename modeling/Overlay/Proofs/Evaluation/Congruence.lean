import Overlay.Evaluation
import Overlay.Proofs.Course

/-!
# Evaluation as a sequence of courses

An evaluation expands references, and then runs courses one after the other. So what holds of the
expansion and of the courses of the continuation, and is kept by sequences, holds of the whole.
-/

namespace Overlay.Evaluation

open Instantiation (Continuation Frame Respects Uniform)

variable {ι : Type} (C : Course.Congruence ι) (e : Evaluation)

section
variable {limits : ι → Nat} (site : Site) {again : ι → Continuation}
  (hf : Uniform C fun i => ⟨site, limits i⟩) (h : Respects C again)
include hf h

theorem fanOut_uniform (label : String) :
    ∀ spec, C.holds fun i => e.fanOut ⟨site, limits i⟩ (again i) label spec
  | none => C.const _
  | some spec => by
    refine C.bind (C.mapError (fun _ => rfl) ?_) fun _ => C.const _
    exact C.bind (Instantiation.specValue_uniform C hf h spec _ _) fun _ => C.const _

theorem outputsAt_uniform (spec : Option Value) :
    C.holds fun i => e.outputsAt ⟨site, limits i⟩ (again i) spec := by
  have hcopies := fanOut_uniform C e site hf h (site.assembly.corpus.label site.document) spec
  refine C.bind hcopies fun copies => C.flatMapM (fun copy => ?_) copies
  refine C.mapError (fun _ => rfl) (C.bind ?_ fun _ => C.const _)
  exact Instantiation.instantiate_uniform C hf h (site.assembly.corpus.data site.document) copy.2 ""

end

theorem evaluateWith_uniform {limits : ι → Nat} {again : ι → Frame → Continuation}
    (hexpand : ∀ a, C.holds fun i =>
      (liftM (({ e with limit := limits i } : Evaluation).expandAll a) : Course Assembly))
    (hf : ∀ site, Uniform C fun i => ⟨site, limits i⟩)
    (h : ∀ site, Respects C fun i => again i ⟨site, limits i⟩) (c : Corpus) (order : List Nat) :
    C.holds fun i => ({ e with limit := limits i } : Evaluation).evaluateWith (again i) c order := by
  refine C.bind (C.const _) fun a => C.bind (hexpand a) fun expanded => ?_
  refine C.flatMapM (fun (copy : Nat × Option Value) => ?_) _
  exact outputsAt_uniform C e _ (hf _) (h _) copy.2

theorem evaluateWith_congr (again : ι → Frame → Continuation)
    (h : ∀ f, Respects C fun i => again i f) (c : Corpus) (order : List Nat) :
    C.holds fun i => e.evaluateWith (again i) c order :=
  evaluateWith_uniform C e (fun _ => C.const _) (fun _ => Instantiation.uniform_const C _)
    (fun _ => h _) c order

end Overlay.Evaluation
