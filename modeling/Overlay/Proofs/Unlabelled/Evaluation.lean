import Overlay.Proofs.Expansion.Congruence
import Overlay.Proofs.Instantiation.Depth
import Overlay.Proofs.Unlabelled.Assembly
import Overlay.Evaluation

/-!
# Evaluating without labels

Outputs do not depend on how documents are labelled, nor do errors but for the documents they name.
-/

namespace Overlay

/-! ## Courses -/

namespace Course

variable {α β : Type}

def anonymous (x : Course α) : Course α :=
  x.mapError Error.anonymous

@[simp] theorem anonymous_pure (a : α) : (pure a : Course α).anonymous = pure a := rfl

@[simp] theorem anonymous_liftM (x : Result α) :
    (liftM x : Course α).anonymous = liftM x.anonymous := by
  cases x <;> rfl

@[simp] theorem anonymous_defaultDocument (label : String) (x : Course α) :
    Course.anonymous (x.mapError (Error.defaultDocument label)) = x.anonymous := by
  rcases x with _ | (_ | _) <;> rfl

theorem anonymous_bind (x : Course α) (f : α → Course β) :
    (x >>= f).anonymous = x.anonymous >>= fun a => (f a).anonymous := by
  rcases x with _ | (_ | _) <;> rfl

theorem anonymous_map (f : α → β) (x : Course α) : (f <$> x).anonymous = f <$> x.anonymous := by
  rcases x with _ | (_ | _) <;> rfl

theorem anonymous_flatMapM {γ : Type} (f : α → γ) {g : α → Course (List β)} {h : γ → Course (List β)}
    (hgh : ∀ a, (g a).anonymous = (h (f a)).anonymous) : ∀ xs : List α,
      Course.anonymous (xs.flatMapM g) = Course.anonymous ((xs.map f).flatMapM h)
  | [] => rfl
  | x :: xs => by
    rw [List.map_cons, List.flatMapM_cons, List.flatMapM_cons, anonymous_bind, anonymous_bind, hgh]
    refine bind_congr fun ys => ?_
    rw [anonymous_bind, anonymous_bind, anonymous_flatMapM f hgh xs]

theorem anonymous_flatMapM_congr {g h : α → Course (List β)}
    (hgh : ∀ a, (g a).anonymous = (h a).anonymous) (xs : List α) :
    Course.anonymous (xs.flatMapM g) = Course.anonymous (xs.flatMapM h) := by
  have hall := anonymous_flatMapM id hgh xs
  rwa [List.map_id] at hall

end Course

/-! ## Expansion -/

namespace Expansion

theorem replacement?_unlabelled (s : Site) (v : Value) (path : String) :
    replacement? s.unlabelled v path = replacement? s v path := by
  have hresolve : Reference.resolveAt s.unlabelled = Reference.resolveAt s := by
    funext reference path
    rw [Reference.resolveAt, Reference.resolveAt, Reference.resolve_unlabelled]
  cases v with
  | string text => simp only [replacement?, hresolve]
  | map entries => simp only [replacement?, substitute?, hresolve]
  | _ => rfl

theorem expand_unlabelled (s : Site) (limit : Nat) (v : Value) (path : String) :
    expand s.unlabelled limit v path = expand s limit v path := by
  have hwithin : ∀ budget v path,
      expandWithin s.unlabelled limit budget v path = expandWithin s limit budget v path := by
    intro budget
    induction budget with
    | zero => exact fun _ _ => rfl
    | succ budget ih =>
      intro v path
      rw [expandWithin, expandWithin]
      refine expandWith_congr (C := .same) (.of_eq (replacement?_unlabelled s)) ?_ trivial rfl
      intro u p q _ hpq
      rw [hpq]
      exact ih u q
  exact hwithin (limit + 1) v path

end Expansion

/-! ## Instantiation -/

namespace Instantiation

def Frame.unlabelled (f : Frame) : Frame :=
  ⟨f.site.unlabelled, f.limit⟩

variable (f : Frame)

theorem uniform_unlabelled : Uniform .same fun b => bif b then f else f.unlabelled := by
  have hpiece : ∀ env path piece,
      pieceText f.unlabelled env path piece = pieceText f env path piece := by
    intro env path piece
    cases piece with
    | text s => rfl
    | expression s =>
      simp only [pieceText, Reference.resolveIn, Frame.unlabelled, Reference.resolve_unlabelled]
  refine ⟨fun s env path => congrArg liftM ?_, fun format text path => congrArg liftM ?_⟩
  · simp only [cond_false, cond_true, stringValue]
    rw [show pieceText f.unlabelled env path = pieceText f env path from funext (hpiece env path)]
  · simp only [cond_false, cond_true, embedded, Frame.unlabelled, Expansion.expand_unlabelled]

theorem within_unlabelled : ∀ depth : Nat,
    Respects .same fun b => within (bif b then f else f.unlabelled) depth
  | 0 => fun _ _ _ => rfl
  | depth + 1 => fun v env path => by
    have h := instantiate_uniform .same (uniform_unlabelled f) (within_unlabelled depth) v env path
    exact h

theorem run_unlabelled : f.unlabelled.run = f.run := by
  funext v env path
  refine Option.ext fun r => ?_
  have hends : ∀ g : Frame,
      g.run v env path = some r ↔ ∃ depth, within g depth v env path = some r := by
    intro g
    exact ⟨(run_reaches g v env path).2 r, fun ⟨depth, h⟩ => run_of_within g h⟩
  rw [hends, hends]
  refine exists_congr fun depth => ?_
  have h : within f.unlabelled depth v env path = within f depth v env path :=
    within_unlabelled f depth v env path
  rw [h]

end Instantiation

/-! ## Evaluation -/

namespace Evaluation

open Instantiation (Continuation Frame Respects)

variable (e : Evaluation)

/-- Expands one document of an assembly, in a corpus in which others may be expanded already. -/
def expandOne (a : Assembly) (c : Corpus) (id : Nat) : Result Corpus := do
  let expanded ← (Expansion.expand ⟨a, id⟩ e.limit (c.data id) "").mapError
    (Error.defaultDocument (a.corpus.label id))
  return c.setData id expanded

theorem expandAll_eq (a : Assembly) :
    e.expandAll a = (fun corpus => ⟨corpus, a.result⟩) <$> a.result.foldlM (e.expandOne a) a.corpus :=
  rfl

theorem expandOne_unlabelled (a : Assembly) (c : Corpus) (id : Nat) :
    Result.anonymous (e.expandOne a.unlabelled c.unlabelled id) =
      Corpus.unlabelled <$> Result.anonymous (e.expandOne a c id) := by
  have hexpand : Expansion.expand ⟨a.unlabelled, id⟩ e.limit (c.data id) "" =
      Expansion.expand ⟨a, id⟩ e.limit (c.data id) "" :=
    Expansion.expand_unlabelled ⟨a, id⟩ e.limit (c.data id) ""
  simp only [expandOne, Result.anonymous_bind, Result.anonymous_defaultDocument,
    Corpus.data_unlabelled, hexpand]
  cases Result.anonymous (Expansion.expand ⟨a, id⟩ e.limit (c.data id) "") with
  | error err => rfl
  | ok v => exact congrArg Except.ok (c.setData_unlabelled id v)

theorem expandAll_unlabelled (a : Assembly) :
    Result.anonymous (e.expandAll a.unlabelled) =
      Assembly.unlabelled <$> Result.anonymous (e.expandAll a) := by
  have hfold : ∀ (ids : List Nat) (c : Corpus),
      Result.anonymous (ids.foldlM (e.expandOne a.unlabelled) c.unlabelled) =
        Corpus.unlabelled <$> Result.anonymous (ids.foldlM (e.expandOne a) c) := by
    intro ids
    induction ids with
    | nil => exact fun _ => rfl
    | cons id ids ih =>
      intro c
      rw [List.foldlM_cons, List.foldlM_cons, Result.anonymous_bind, Result.anonymous_bind,
        expandOne_unlabelled]
      cases Result.anonymous (e.expandOne a c id) with
      | error err => rfl
      | ok d => exact ih d
  rw [expandAll_eq, expandAll_eq, Result.anonymous_map, Result.anonymous_map]
  rw [show Result.anonymous (a.unlabelled.result.foldlM (e.expandOne a.unlabelled)
    a.unlabelled.corpus) = _ from hfold a.result a.corpus]
  cases Result.anonymous (a.result.foldlM (e.expandOne a) a.corpus) <;> rfl

theorem takeSpecs_unlabelled : ∀ (ids : List Nat) (c : Corpus),
    takeSpecs c.unlabelled ids = ((takeSpecs c ids).1.unlabelled, (takeSpecs c ids).2)
  | [], _ => rfl
  | id :: rest, c => by
    rw [takeSpecs, takeSpecs, Corpus.data_unlabelled]
    cases c.data id with
    | map entries =>
      simp only [Corpus.setData_unlabelled, takeSpecs_unlabelled rest]
    | _ => simp only [takeSpecs_unlabelled rest]

variable (f : Frame) (again : Continuation)

theorem respects_const : Respects .same fun _ => again :=
  fun _ _ _ => rfl

theorem specValue_unlabelled (spec : Value) (env : Environment) (path : String) :
    Instantiation.specValue f.unlabelled again spec env path =
      Instantiation.specValue f again spec env path :=
  Instantiation.specValue_uniform .same (Instantiation.uniform_unlabelled f)
    (respects_const again) spec env path

theorem instantiate_unlabelled (v : Value) (env : Environment) (path : String) :
    Instantiation.instantiate f.unlabelled again v env path =
      Instantiation.instantiate f again v env path :=
  Instantiation.instantiate_uniform .same (Instantiation.uniform_unlabelled f)
    (respects_const again) v env path

/-- The environments of the copies do not depend on the labels that the copies get. -/
theorem fanOut_unlabelled (label other : String) (spec : Option Value) :
    Course.anonymous (List.map Prod.snd <$> e.fanOut f.unlabelled again other spec) =
      Course.anonymous (List.map Prod.snd <$> e.fanOut f again label spec) := by
  cases spec with
  | none => rfl
  | some spec =>
    simp only [fanOut, Instantiation.runSpec, specValue_unlabelled, Course.anonymous_bind,
      Course.anonymous_defaultDocument, map_bind]
    refine bind_congr fun envs => ?_
    simp only [map_pure, List.map_map]
    rfl

/-- The outputs of a copy of a document. -/
def outputsIn (env : Environment) : Course (List Value) := do
  let v ← Instantiation.instantiate f again
    (f.site.assembly.corpus.data f.site.document) env ""
  e.outputsOf v

theorem outputsIn_unlabelled : e.outputsIn f.unlabelled again = e.outputsIn f again := by
  funext env
  have hdata : f.unlabelled.site.assembly.corpus.data f.unlabelled.site.document =
      f.site.assembly.corpus.data f.site.document :=
    Corpus.data_unlabelled _ _
  rw [outputsIn, outputsIn, hdata, instantiate_unlabelled]

theorem anonymous_outputsAt (spec : Option Value) :
    Course.anonymous (e.outputsAt f again spec) =
      Course.anonymous (List.map Prod.snd <$>
        e.fanOut f again (f.site.assembly.corpus.label f.site.document) spec) >>= fun envs =>
          Course.anonymous (envs.flatMapM (e.outputsIn f again)) := by
  rw [outputsAt, Course.anonymous_bind, Course.anonymous_map, bind_map_left]
  refine bind_congr fun copies => ?_
  exact Course.anonymous_flatMapM Prod.snd
    (fun copy => Course.anonymous_defaultDocument copy.1 (e.outputsIn f again copy.2)) copies

theorem outputsAt_unlabelled (spec : Option Value) :
    Course.anonymous (e.outputsAt f.unlabelled again spec) =
      Course.anonymous (e.outputsAt f again spec) := by
  rw [anonymous_outputsAt, anonymous_outputsAt, outputsIn_unlabelled,
    fanOut_unlabelled e f again (f.site.assembly.corpus.label f.site.document)]

theorem outputs_unlabelled (a : Assembly) :
    Course.anonymous (e.outputs Frame.run a.unlabelled) =
      Course.anonymous (e.outputs Frame.run a) := by
  have hspecs := takeSpecs_unlabelled a.result a.corpus
  have hcopy : ∀ copy : Nat × Option Value,
      let f : Frame := ⟨⟨{ a with corpus := (takeSpecs a.corpus a.result).1 }, copy.1⟩, e.limit⟩
      Course.anonymous (e.outputsAt f.unlabelled f.unlabelled.run copy.2) =
        Course.anonymous (e.outputsAt f f.run copy.2) := by
    intro copy f
    rw [Instantiation.run_unlabelled, outputsAt_unlabelled]
  simp only [outputs, Assembly.corpus_unlabelled, Assembly.result_unlabelled, hspecs]
  exact Course.anonymous_flatMapM_congr hcopy _

/-- Outputs do not depend on labels, and errors do not but for the document they name. -/
theorem evaluate_unlabelled (c : Corpus) (order : List Nat) :
    Course.anonymous (e.evaluate c.unlabelled order) = Course.anonymous (e.evaluate c order) := by
  have hassemble : Result.anonymous (Assembly.ofCorpus c.unlabelled order) =
      Assembly.unlabelled <$> Result.anonymous (Assembly.ofCorpus c order) :=
    Assembly.foldlM_add_unlabelled order ⟨c, []⟩
  simp only [evaluate, evaluateWith, Course.anonymous_bind, Course.anonymous_liftM, hassemble]
  cases Result.anonymous (Assembly.ofCorpus c order) with
  | error err => rfl
  | ok a =>
    show (liftM (Result.anonymous (e.expandAll a.unlabelled)) >>= fun b =>
      Course.anonymous (e.outputs Frame.run b)) =
        (liftM (Result.anonymous (e.expandAll a)) >>= fun b =>
          Course.anonymous (e.outputs Frame.run b) : Course (List Value))
    rw [expandAll_unlabelled]
    cases Result.anonymous (e.expandAll a) with
    | error err => rfl
    | ok b => exact outputs_unlabelled e b

end Evaluation

end Overlay
