import Overlay.Files.Loading
import Overlay.Proofs.Assembly.Layers
import Overlay.Proofs.Files.Tree

/-!
# Loading from a tree

What a loader asks of a tree leaves the tree as it is. The answers for an entry of a directory are
what the tree has there.
-/

namespace Overlay

theorem run_bind {α β σ : Type} {x : StateM σ α} {f : α → StateM σ β} {s next : σ} {a : α}
    (h : x s = (a, next)) : (x >>= f) s = f a next := by
  simp [bind, StateT.bind, h]

namespace FileTree

/-- The files of trees, as they can be asked for. -/
abbrev reader (bound : Nat) : FileReader (StateM FileTree) :=
  (store bound).toFileReader

section
variable (t : FileTree) (bound : Nat) (path : String)

theorem isFile_reader : (reader bound).isFile path t = (t.isFile path, t) := rfl

theorem linkTarget?_reader : (reader bound).linkTarget? path t = (t.linkTarget? path, t) := rfl

theorem canonical?_reader : (reader bound).canonical? path t = (t.canonical? path, t) := rfl

theorem readText_reader : (reader bound).readText path t = (t.readText path, t) := rfl

end

end FileTree

namespace Loader

open FileTree (IsDirectory entryPath reader)

variable {t : FileTree} (bound : Nat)

/-- A file is identified by what its directory comes to and its name. -/
theorem identity_eq {m : Type → Type} [Monad m] (r : FileReader m) {path directory name : String}
    (hparent : Path.parent? path = some directory) (hname : Path.fileName? path = some name) :
    identity r path = do
      match ← r.canonical? (Path.orHere directory) with
      | some directory => return Path.join directory name
      | none => return path := by
  rw [identity, hparent, Path.orHere]
  split
  case h_1 hnone => cases hnone
  case' h_2 hempty => rw [if_pos (Option.some.inj hempty)]
  case' h_3 hne hsome => rw [Option.some.inj hsome, if_neg hne]
  all_goals
    refine bind_congr fun found => ?_
    rw [hname]
    cases found <;> rfl

theorem filesAmong_tree (t : FileTree) : ∀ paths : List String,
    filesAmong (reader bound) paths t = (paths.filter t.isFile, t)
  | [] => rfl
  | path :: rest => by
    rw [filesAmong, run_bind (t.isFile_reader bound path), run_bind (filesAmong_tree t rest),
      List.filter_cons]
    rfl

section
variable {directory : List String} {name : String} (hdirectory : t.IsDirectory directory)
  (hname : Path.Plain name)
include hdirectory hname

theorem directoryOf_entry : directoryOf (entryPath directory name) = Text.joined "/" directory := by
  rw [directoryOf, entryPath, Path.parent?_path hdirectory.plain hname]
  rfl

theorem identity_entry : identity (reader bound) (entryPath directory name) t =
    (Path.join (t.pathTo (t.here ++ directory)) name, t) := by
  have hparent := Path.parent?_path hdirectory.plain hname
  have hasked := t.canonical?_reader bound (Path.orHere (Text.joined "/" directory))
  rw [FileTree.canonical?_directory hdirectory] at hasked
  rw [entryPath, identity_eq (reader bound) hparent (Path.fileName?_path hdirectory.plain hname),
    run_bind hasked]
  rfl

theorem readDocuments_entry {format : Format} {text : String} {values : List Value}
    (hformat : Format.ofPath (entryPath directory name) = .ok format)
    (hfile : t.nodeIn? directory name = some (.file text.toUTF8))
    (hdecode : format.decodeStream text = .ok values) :
    readDocuments (reader bound) (entryPath directory name) t = (.ok values, t) := by
  simp only [readDocuments, hformat]
  rw [run_bind (t.readText_reader bound _), FileTree.readText_entry hdirectory hname hfile]
  simp only [hdecode]
  rfl

end

/-! ## Adding a file -/

section
variable (l : Loader) (key path : String) (values : List Value) (parents : List Nat)

theorem corpus_addFile : (l.addFile key path values parents).corpus =
    Evaluation.addLayer l.corpus (fun i => path ++ "#" ++ toString i) parents values := rfl

theorem size_addFile :
    (l.addFile key path values parents).corpus.size = l.corpus.size + values.length := by
  rw [corpus_addFile, Evaluation.size_addLayer]

variable {l} in
theorem order_addFile (h : l.order = List.range l.corpus.size) :
    (l.addFile key path values parents).order =
      List.range (l.addFile key path values parents).corpus.size := by
  have happend := List.range'_append_1 (s := 0) (m := l.corpus.size) (n := values.length)
  rw [size_addFile]
  simpa [addFile, h, List.range_eq_range'] using happend

theorem lookup_addFile_self : (l.addFile key path values parents).loaded.lookup key =
    some (List.range' l.corpus.size values.length) := by
  rw [addFile, List.lookup_cons_self]

variable {key} in
theorem lookup_addFile_ne {other : String} (hne : other ≠ key) :
    (l.addFile key path values parents).loaded.lookup other = l.loaded.lookup other := by
  rw [addFile, List.lookup_cons, beq_false_of_ne hne]

end

/-! ## Parents that are declared -/

theorem declared_none : ∀ {values : List Value} (before : Option Parentage),
    (∀ v ∈ values, v.entry? Directive.parent = none) → declared before values = .ok before
  | [], _, _ => rfl
  | v :: rest, before, h => by
    obtain ⟨hv, hrest⟩ := List.forall_mem_cons.mp h
    rw [declared, hv]
    exact declared_none before hrest

end Loader

end Overlay
