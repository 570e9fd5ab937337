import Mathlib
import Overlay.Proofs.Evaluation.Congruence
import Overlay.Proofs.Instantiation.Embedding
import Overlay.Proofs.Literal.Evaluation

/-!
# When an evaluation ends

All steps of an evaluation end, but documents may be embedded in one another without end. So it ends
exactly if it ends with a bound on the depth of that, and exactly if no endless chain of embedded
documents starts from what it instantiates.
-/

namespace Overlay.Evaluation

open Instantiation (Continuation Embeds Frame Input Respects embedding selfEmbedding selfText)

variable (e : Evaluation)

/-- An evaluation ends, and ends so, exactly if it does with some bound on the depth to which documents
are embedded in one another. -/
theorem evaluate_eq_some_iff (c : Corpus) (order : List Nat) (outcome : Result (List Value)) :
    e.evaluate c order = some outcome ↔
      ∃ depth, e.evaluateWith (fun f => Instantiation.within f depth) c order = some outcome := by
  constructor
  · let again (bound : Option Nat) : Frame → Continuation :=
      bound.elim Frame.run fun depth f => Instantiation.within f depth
    exact (evaluateWith_congr .reaches e again Instantiation.run_reaches c order).2 outcome
  · rintro ⟨depth, h⟩
    let again (b : Bool) (f : Frame) : Continuation :=
      bif b then f.run else Instantiation.within f depth
    rcases evaluateWith_congr .below e again (fun f => Instantiation.within_below_run f depth) c order
      with hb | hb
    · cases hb.symm.trans h
    · exact hb.symm.trans h

open Classical in
/-- Instantiates inputs in their documents, a given one apart, which goes on for ever. -/
noncomputable def runAllBut (f : Frame) (x : Input) (g : Frame) : Continuation :=
  Instantiation.runBut g (if g = f then some x else none)

/-- An evaluation instantiates an input in a document: it goes on for ever if that alone does. -/
def Starts (e : Evaluation) (c : Corpus) (order : List Nat) (f : Frame) (x : Input) : Prop :=
  e.evaluateWith (runAllBut f x) c order = none

/-- An evaluation ends exactly if all it starts is embedded in one another without an endless chain. -/
theorem evaluate_ends_iff (c : Corpus) (order : List Nat) :
    (∃ outcome, e.evaluate c order = some outcome) ↔
      ∀ f x, e.Starts c order f x → Acc (fun y x => Embeds f x y) x := by
  -- An input may be instantiated in several documents, so causes are pairs of both.
  let isCause (i : Frame × Input) : Prop :=
    i.1.run i.2.value i.2.env i.2.path = none
  let again (skipped : Option (Frame × Input)) : Frame → Continuation :=
    skipped.elim Frame.run fun i => runAllBut i.1 i.2
  have hrespects (g : Frame) : Respects (.blames isCause) fun i => again i g := by
    intro v env path
    refine ⟨fun i hi r hr => ?_, fun h => ⟨(g, ⟨v, env, path⟩), h, ?_⟩⟩
    · refine Instantiation.runBut_of_run (fun y hy => ?_) hr
      split at hy
      · rename_i hg
        cases hy
        rw [hg]
        exact hi
      · cases hy
    · show runAllBut g ⟨v, env, path⟩ g v env path = none
      rw [runAllBut, if_pos rfl]
      exact if_pos rfl
  have hblames := evaluateWith_congr (.blames isCause) e again hrespects c order
  constructor
  · rintro ⟨outcome, houtcome⟩ f x hx
    rw [← Instantiation.run_ends_iff]
    cases hr : f.run x.value x.env x.path with
    | some r => exact ⟨r, rfl⟩
    | none => cases (hblames.1 (f, x) hr _ houtcome).symm.trans hx
  · intro hacc
    cases h : e.evaluate c order with
    | some outcome => exact ⟨outcome, rfl⟩
    | none =>
      obtain ⟨⟨f, x⟩, hr, hx⟩ := hblames.2 h
      obtain ⟨r, hr'⟩ := (Instantiation.run_ends_iff x).mpr (hacc f x hx)
      cases hr.symm.trans hr'

/-! ## A document without end -/

theorem instantiate_selfEmbedding {f : Frame}
    (hf : f = ⟨⟨⟨selfEmbedding selfText, [0]⟩, 0⟩, 1000⟩) :
    Instantiation.instantiate f f.run ((selfEmbedding selfText).data 0) [] "" = none := by
  have hentry (path : String) :
      Instantiation.instantiate f f.run (embedding selfText) [] path = none := by
    rw [← Frame.run]
    exact Instantiation.run_selfEmbedding hf [] path
  have hdata : (selfEmbedding selfText).data 0 =
      .map [("a", embedding selfText), ("t", .string selfText)] := rfl
  have hunknown : Instantiation.isUnknownDirective "a" = false := by decide
  rw [hdata]
  simp [Instantiation.instantiate, Instantiation.encoded, Instantiation.contentOf,
    Instantiation.plainEntries, Entries.has, Entries.lookup, Directive.repeatOver,
    Directive.encode, Directive.decode, Directive.value, hentry, hunknown]
  rfl

/-- A document that holds its text and is read from it has no outcome. -/
theorem evaluate_selfEmbedding : evaluate {} (selfEmbedding "$merge:t") [0] = none := by
  have htaken : Assembly.ofCorpus (selfEmbedding "$merge:t") [0] =
      .ok ⟨selfEmbedding "$merge:t", [0]⟩ :=
    Assembly.ofCorpus_of_takeIn fun patch hp => by
      obtain rfl := List.mem_singleton.mp hp
      exact Assembly.takeIn_of_parentless rfl rfl rfl
  have hexpanded : expandAll {} ⟨selfEmbedding "$merge:t", [0]⟩ =
      .ok ⟨selfEmbedding selfText, [0]⟩ := by cbv
  have hspecs : takeSpecs (selfEmbedding selfText) [0] = (selfEmbedding selfText, [none]) := rfl
  simp only [evaluate, evaluateWith, htaken, hexpanded, Course.lift_ok, pure_bind, outputs, hspecs]
  rw [List.zip_cons_cons, List.flatMapM_cons, outputsAt, fanOut]
  simp only [pure_bind, List.flatMapM_cons, instantiate_selfEmbedding rfl]
  rfl

end Overlay.Evaluation
