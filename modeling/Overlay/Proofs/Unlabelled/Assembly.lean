import Overlay.Proofs.Corpus
import Overlay.Proofs.Result
import Overlay.Reference

/-!
# Assembling without labels

Documents are labelled for messages alone. A corpus without its labels is assembled in the same way,
but for the documents that errors name, and references lead to the same values in it.
-/

namespace Overlay

/-! ## Errors -/

/-- An error that names no document. -/
def Error.anonymous (e : Error) : Error :=
  { e with document := none }

def Result.anonymous {α : Type} (x : Result α) : Result α :=
  x.mapError Error.anonymous

namespace Result

variable {α β : Type}

@[simp] theorem anonymous_ok (a : α) : anonymous (.ok a : Result α) = .ok a := rfl

theorem anonymous_bind (x : Result α) (f : α → Result β) :
    (x >>= f).anonymous = x.anonymous >>= fun a => (f a).anonymous := by
  cases x <;> rfl

theorem anonymous_map (f : α → β) (x : Result α) : (f <$> x).anonymous = f <$> x.anonymous := by
  cases x <;> rfl

@[simp] theorem anonymous_defaultDocument (label : String) (x : Result α) :
    Result.anonymous (x.mapError (Error.defaultDocument label)) = x.anonymous := by
  cases x <;> rfl

end Result

/-! ## Corpora -/

namespace Corpus

def unlabelled (c : Corpus) : Corpus :=
  ⟨c.documents.map fun d => { d with label := "" }⟩

variable (c : Corpus)

@[simp] theorem size_unlabelled : c.unlabelled.size = c.size := by
  simp [size, unlabelled]

@[simp] theorem data_unlabelled (id : Nat) : c.unlabelled.data id = c.data id := by
  simp only [data, unlabelled, List.getElem?_map, Option.map_map]
  rfl

@[simp] theorem parents_unlabelled (id : Nat) : c.unlabelled.parents id = c.parents id := by
  simp only [parents, unlabelled, List.getElem?_map, Option.map_map]
  rfl

theorem setData_unlabelled (id : Nat) (v : Value) :
    c.unlabelled.setData id v = (c.setData id v).unlabelled := by
  refine congrArg Corpus.mk (List.ext_getElem? fun i => ?_)
  simp only [setData, unlabelled, List.getElem?_modify, List.getElem?_map]
  by_cases h : id = i <;> simp [h, Function.comp_def]

theorem addParent_unlabelled (id parent : Nat) :
    c.unlabelled.addParent id parent = (c.addParent id parent).unlabelled := by
  refine congrArg Corpus.mk (List.ext_getElem? fun i => ?_)
  simp only [addParent, unlabelled, List.getElem?_modify, List.getElem?_map]
  by_cases h : id = i <;> simp [h, Function.comp_def]

@[simp] theorem ancestors_unlabelled (id : Nat) :
    c.unlabelled.ancestors id = c.ancestors id := by
  have hvisit : ∀ unvisited pending : List Nat,
      c.unlabelled.visit unvisited pending = c.visit unvisited pending := by
    intro unvisited pending
    induction unvisited, pending using visit.induct c with
    | case1 unvisited => rw [visit, visit]
    | case2 unvisited next rest h ih =>
      rw [visit, visit, if_pos h, if_pos h, parents_unlabelled, ih]
    | case3 unvisited next rest h ih => rw [visit, visit, if_neg h, if_neg h, ih]
  simp only [ancestors, size_unlabelled, parents_unlabelled, hvisit]

end Corpus

/-! ## Assemblies -/

namespace Assembly

def unlabelled (a : Assembly) : Assembly :=
  ⟨a.corpus.unlabelled, a.result⟩

variable (a : Assembly)

@[simp] theorem corpus_unlabelled : a.unlabelled.corpus = a.corpus.unlabelled := rfl

@[simp] theorem result_unlabelled : a.unlabelled.result = a.result := rfl

@[simp] theorem fitting_unlabelled (pattern : Value) :
    a.unlabelled.fitting pattern = a.fitting pattern := by
  simp [fitting]

theorem targets_unlabelled (patch : Nat) (selector : Selector) :
    a.unlabelled.targets patch selector = a.targets patch selector := by
  cases selector with
  | none => rfl
  | patterns patterns => simp only [targets, search, corpus_unlabelled, fitting_unlabelled,
      Corpus.ancestors_unlabelled]
  | lineage => simp only [targets, corpus_unlabelled, result_unlabelled,
      Corpus.ancestors_unlabelled]

theorem foldlM_mergeInto_unlabelled (patch : Nat) (data : Value) :
    ∀ (targets : List Nat) (c : Corpus),
      targets.foldlM (mergeInto patch data) c.unlabelled =
        Corpus.unlabelled <$> targets.foldlM (mergeInto patch data) c
  | [], _ => rfl
  | target :: rest, c => by
    rw [List.foldlM_cons, List.foldlM_cons, mergeInto, mergeInto, Corpus.data_unlabelled]
    cases (c.data target).merge data "" with
    | error e => rfl
    | ok merged =>
      simp only [Result.ok_bind, Corpus.setData_unlabelled, Corpus.addParent_unlabelled]
      exact foldlM_mergeInto_unlabelled patch data rest _

theorem takeIn_unlabelled (patch : Nat) :
    a.unlabelled.takeIn patch = unlabelled <$> a.takeIn patch := by
  simp only [takeIn, corpus_unlabelled, Corpus.data_unlabelled, Corpus.setData_unlabelled]
  cases selection (a.corpus.data patch) with
  | error e => rfl
  | ok selected =>
    obtain ⟨data, selector⟩ := selected
    have htargets := targets_unlabelled ⟨a.corpus.setData patch .null, a.result⟩ patch selector
    simp only [Result.ok_bind]
    rw [show targets { a.unlabelled with corpus := (a.corpus.setData patch .null).unlabelled }
      patch selector = _ from htargets]
    cases targets ⟨a.corpus.setData patch .null, a.result⟩ patch selector with
    | error e => rfl
    | ok found =>
      cases found with
      | nil =>
        simp only [Result.ok_bind]
        cases data.normalize "" with
        | error e => rfl
        | ok fresh =>
          simp only [Result.ok_bind]
          rfl
      | cons target rest =>
        simp only [Result.ok_bind, foldlM_mergeInto_unlabelled]
        cases List.foldlM (mergeInto patch data) (a.corpus.setData patch .null) (target :: rest) with
        | error e => rfl
        | ok merged =>
          show Except.ok (⟨merged.unlabelled.setData patch data, a.result⟩ : Assembly) = _
          rw [Corpus.setData_unlabelled]
          rfl

theorem add_unlabelled (patch : Nat) :
    (a.unlabelled.add patch).anonymous = unlabelled <$> (a.add patch).anonymous := by
  simp only [add, Result.anonymous_defaultDocument, takeIn_unlabelled, Result.anonymous_map]

theorem foldlM_add_unlabelled : ∀ (order : List Nat) (a : Assembly),
    Result.anonymous (order.foldlM add a.unlabelled) =
      unlabelled <$> Result.anonymous (order.foldlM add a)
  | [], _ => rfl
  | id :: order, a => by
    rw [List.foldlM_cons, List.foldlM_cons, Result.anonymous_bind, Result.anonymous_bind,
      add_unlabelled]
    cases (a.add id).anonymous with
    | error e => rfl
    | ok b => exact foldlM_add_unlabelled order b

end Assembly

/-! ## References -/

namespace Site

def unlabelled (s : Site) : Site :=
  ⟨s.assembly.unlabelled, s.document⟩

variable (s : Site)

@[simp] theorem assembly_unlabelled : s.unlabelled.assembly = s.assembly.unlabelled := rfl

@[simp] theorem document_unlabelled : s.unlabelled.document = s.document := rfl

end Site

theorem Reference.resolve_unlabelled (s : Site) (reference : Value) :
    resolve s.unlabelled reference = resolve s reference := by
  have hselect : ∀ pattern, select s.unlabelled pattern = select s pattern := by
    intro pattern
    simp only [select, Site.assembly_unlabelled, Site.document_unlabelled,
      Assembly.corpus_unlabelled, Assembly.fitting_unlabelled, Corpus.ancestors_unlabelled]
  have hwalk : ∀ id path text, walk s.unlabelled.assembly.corpus id path text =
      walk s.assembly.corpus id path text := by
    intro id path text
    simp only [walk, Site.assembly_unlabelled, Assembly.corpus_unlabelled, Corpus.data_unlabelled]
  have hlist : ∀ items, resolveList s.unlabelled items = resolveList s items := by
    intro items
    simp only [resolveList, hselect, hwalk, Site.document_unlabelled]
  have hmap : ∀ entries, resolveMap s.unlabelled entries = resolveMap s entries := by
    intro entries
    simp only [resolveMap, hselect, hwalk]
  cases reference <;> simp only [resolve, hlist, hmap, hwalk, Site.document_unlabelled]

end Overlay
