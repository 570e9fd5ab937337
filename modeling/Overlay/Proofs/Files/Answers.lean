import Overlay.Proofs.Files.Loading

/-!
# Loading from files that stay as they are

The answers of a tree do not change while files are loaded from it. So loading from a tree is loading
from fixed answers, which needs no state.
-/

namespace Overlay

/-- In a state, an action comes to a value and leaves the state as it is. -/
def Settles {σ α : Type} (s : σ) (x : StateM σ α) (y : Id α) : Prop :=
  x s = (y.run, s)

namespace Settles

variable {σ α β : Type} {s : σ}

theorem pure (a : α) : Settles s (pure a) (pure a) := rfl

theorem bind {x : StateM σ α} {y : Id α} {f : α → StateM σ β} {g : α → Id β} (h : Settles s x y)
    (hf : ∀ a, Settles s (f a) (g a)) : Settles s (x >>= f) (y >>= g) :=
  (run_bind h).trans (hf y.run)

theorem ite {p : Prop} [Decidable p] {x x' : StateM σ α} {y y' : Id α} (h : Settles s x y)
    (h' : Settles s x' y') : Settles s (if p then x else x') (if p then y else y') := by
  split
  · exact h
  · exact h'

end Settles

/-- What a tree answers. No more files than it has nodes can be told apart. -/
def FileTree.answers (t : FileTree) : FileReader Id where
  isFile path := t.isFile path
  linkTarget? path := t.linkTarget? path
  canonical? path := t.canonical? path
  readText path := t.readText path
  bound := t.nodes.length

namespace Loader

open FileTree (reader)

section
variable (t : FileTree) (bound : Nat) (extensions : List String)

theorem identity_settles (path : String) :
    Settles t (identity (reader bound) path) (identity t.answers path) := by
  refine Settles.bind (t.canonical?_reader bound _) fun directory => ?_
  cases directory <;> cases Path.fileName? path <;> exact .pure _

theorem readDocuments_settles (path : String) :
    Settles t (readDocuments (reader bound) path) (readDocuments t.answers path) := by
  unfold readDocuments
  cases Format.ofPath path with
  | error e => exact .pure _
  | ok format =>
    refine Settles.bind (t.readText_reader bound path) fun text => ?_
    cases text <;> exact .pure _

theorem filesAmong_settles : ∀ paths : List String,
    Settles t (filesAmong (reader bound) paths) (filesAmong t.answers paths)
  | [] => .pure _
  | path :: rest =>
    Settles.bind (t.isFile_reader bound path) fun _ =>
      Settles.bind (filesAmong_settles rest) fun _ => .pure _

theorem resolve_settles (directory name : String) :
    Settles t (resolve (reader bound) extensions directory name)
      (resolve t.answers extensions directory name) := by
  refine Settles.bind (t.isFile_reader bound _) fun isFile => Settles.ite (.pure _) ?_
  refine Settles.bind (filesAmong_settles t bound _) fun found => ?_
  match found with
  | [] | [_] | _ :: _ :: _ => exact .pure _

theorem resolveAll_settles (directory : String) : ∀ names : List String,
    Settles t (resolveAll (reader bound) extensions directory names)
      (resolveAll t.answers extensions directory names)
  | [] => .pure _
  | name :: rest => by
    refine Settles.bind (resolve_settles t bound extensions directory name) fun found => ?_
    cases found with
    | error e => exact .pure _
    | ok path => exact Settles.bind (resolveAll_settles directory rest) fun _ => .pure _

theorem namedParent_settles (path : String) :
    Settles t (namedParent (reader bound) extensions path)
      (namedParent t.answers extensions path) := by
  unfold namedParent
  cases baseName? path with
  | error e => exact .pure _
  | ok name =>
    cases name with
    | none => exact .pure _
    | some name => exact resolveAll_settles t bound extensions _ _

theorem conventional_settles : ∀ (links : Nat) (path : String),
    Settles t (conventional (reader bound) extensions links path)
      (conventional t.answers extensions links path)
  | 0, path => by
    refine Settles.bind (t.linkTarget?_reader bound path) fun target => ?_
    cases target with
    | some target => exact .pure _
    | none => exact namedParent_settles t bound extensions path
  | links + 1, path => by
    refine Settles.bind (t.linkTarget?_reader bound path) fun target => ?_
    cases target with
    | some target => exact conventional_settles links _
    | none => exact namedParent_settles t bound extensions path

theorem parentsOf_settles (path : String) (values : List Value) :
    Settles t (parentsOf (reader bound) extensions path values)
      (parentsOf t.answers extensions path values) := by
  unfold parentsOf
  cases declared none values with
  | error e => exact .pure _
  | ok parentage =>
    match parentage with
    | some .none => exact .pure _
    | some (.names names) => exact resolveAll_settles t bound extensions _ _
    | none => exact conventional_settles t bound extensions _ _

theorem survey_settles (path : String) :
    Settles t (survey (reader bound) extensions path) (survey t.answers extensions path) := by
  refine Settles.bind (readDocuments_settles t bound path) fun values => ?_
  cases values with
  | error e => exact .pure _
  | ok values => exact Settles.bind (parentsOf_settles t bound extensions path values) fun _ => .pure _

theorem loadAll_settles {load : String → Loader → StateM FileTree (Result (List Nat) × Loader)}
    {load' : String → Loader → Id (Result (List Nat) × Loader)}
    (h : ∀ path l, Settles t (load path l) (load' path l)) : ∀ (paths : List String) (l : Loader),
      Settles t (loadAll load paths l) (loadAll load' paths l)
  | [], _ => .pure _
  | path :: rest, l => by
    refine Settles.bind (h path l) fun outcome => ?_
    match outcome with
    | (.error e, l) => exact .pure _
    | (.ok ids, l) => exact Settles.bind (loadAll_settles h rest l) fun _ => .pure _

theorem loadWithin_settles : ∀ (depth : Nat) (path : String) (l : Loader),
    Settles t (loadWithin (reader bound) depth path l) (loadWithin t.answers depth path l)
  | 0, _, _ => .pure _
  | depth + 1, path, l => by
    refine Settles.bind (identity_settles t bound path) fun key => Settles.ite (.pure _) ?_
    cases l.loaded.lookup key with
    | some ids => exact .pure _
    | none =>
      refine Settles.bind (survey_settles t bound l.extensions path) fun found => ?_
      match found with
      | .error e => exact .pure _
      | .ok (values, parents) =>
        refine Settles.bind (loadAll_settles t (loadWithin_settles depth) parents _) fun outcome => ?_
        match outcome with
        | (.error e, l) => exact .pure _
        | (.ok ids, l) => exact .pure _

end

end Loader

end Overlay
