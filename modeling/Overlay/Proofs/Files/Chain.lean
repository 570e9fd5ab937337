import Mathlib.Data.List.Nodup
import Overlay.Proofs.Assembly.Chain
import Overlay.Proofs.Files.Loading

/-!
# Chains of files

The files `base.ext`, `base.layer.ext` and so on of one directory are the layers of the last of
them. If nothing else is there, the loader finds each below the next one, and chains their documents.
-/

namespace Overlay

/-- Texts in files of one extension, each file being named for its part and those before it. -/
structure FileChain where
  directory : List String
  parts : List String
  extension : String
  texts : List String

namespace FileChain

variable (c : FileChain)

/-- The name of a file up to its extension: what the next file says that it inherits from. -/
def stem (k : Nat) : String :=
  Text.joined "." (c.parts.take (k + 1))

def name (k : Nat) : String :=
  Text.joined "." (c.parts.take (k + 1) ++ [c.extension])

def path (k : Nat) : String :=
  FileTree.entryPath c.directory (c.name k)

/-- The files that a file inherits from. -/
def parents : Nat → List String
  | 0 => []
  | k + 1 => [c.path k]

/-- What tells a file from others. -/
def key (t : FileTree) (k : Nat) : String :=
  Path.join (t.pathTo (t.here ++ c.directory)) (c.name k)

def label (k i : Nat) : String :=
  c.path k ++ "#" ++ toString i

/-- The files are named for their layers, and no name that one inherits from means two of them. -/
structure Named (extensions : List String) : Prop where
  length : c.texts.length = c.parts.length
  parts : ∀ part ∈ c.parts, Path.Part part ∧ part ≠ "" ∧ part ≠ c.extension
  extension : Path.Part c.extension ∧ c.extension ≠ ""
  known : c.extension ∈ extensions
  clear : ∀ k, k + 1 < c.texts.length →
    (extensions.filter fun e => ∃ j < c.texts.length, c.stem k ++ "." ++ e = c.name j).length ≤ 1

namespace Named

variable {c} {extensions : List String} (h : c.Named extensions)
include h

theorem take_ne_nil {k : Nat} (hk : k < c.texts.length) : c.parts.take (k + 1) ≠ [] := by
  intro hnil
  have hparts : c.parts = [] := by simpa using hnil
  rw [h.length, hparts] at hk
  cases hk

theorem part_of_mem_take {k : Nat} : ∀ part ∈ c.parts.take k, Path.Part part :=
  fun part hpart => (h.parts part (List.mem_of_mem_take hpart)).1

theorem part_of_mem {k : Nat} : ∀ part ∈ c.parts.take k ++ [c.extension], Path.Part part := by
  intro part hpart
  rcases List.mem_append.mp hpart with hpart | hpart
  · exact h.part_of_mem_take part hpart
  · rw [List.mem_singleton.mp hpart]
    exact h.extension.1

theorem nonempty_of_mem {k : Nat} : ∀ part ∈ c.parts.take k ++ [c.extension], part ≠ "" := by
  intro part hpart
  rcases List.mem_append.mp hpart with hpart | hpart
  · exact (h.parts part (List.mem_of_mem_take hpart)).2.1
  · rw [List.mem_singleton.mp hpart]
    exact h.extension.2

theorem name_eq {k : Nat} (hk : k < c.texts.length) :
    c.name k = c.stem k ++ "." ++ c.extension :=
  Text.joined_append_singleton "." (h.take_ne_nil hk) c.extension

theorem name_injective {j k : Nat} (hj : j < c.texts.length) (hk : k < c.texts.length)
    (heq : c.name j = c.name k) : j = k := by
  have hlist := Text.joined_injective rfl (fun part hpart => (h.part_of_mem part hpart).dotless)
    (fun part hpart => (h.part_of_mem part hpart).dotless) (by simp) (by simp) heq
  have hlength := congrArg List.length hlist
  simp only [List.length_append, List.length_take, List.length_singleton, ← h.length] at hlength
  omega

theorem stem_ne_name {k : Nat} (hk : k < c.texts.length) (j : Nat) : c.stem k ≠ c.name j := by
  intro heq
  have hlist := Text.joined_injective rfl
    (fun part hpart => (h.part_of_mem_take part hpart).dotless)
    (fun part hpart => (h.part_of_mem part hpart).dotless) (h.take_ne_nil hk) (by simp) heq
  have hmem : c.extension ∈ c.parts.take (k + 1) := by
    rw [hlist]
    simp
  exact (h.parts c.extension (List.mem_of_mem_take hmem)).2.2 rfl

theorem plain_name (k : Nat) : Path.Plain (c.name k) :=
  Path.plain_name h.part_of_mem (by simp) h.extension.2

theorem plain_stem {k : Nat} (hk : k < c.texts.length) : Path.Plain (c.stem k) := by
  obtain ⟨first, hfirst⟩ := List.exists_mem_of_ne_nil _ (h.take_ne_nil hk)
  have hbusy : first ≠ "" := (h.parts first (List.mem_of_mem_take hfirst)).2.1
  exact Path.plain_name h.part_of_mem_take hfirst hbusy

end Named

variable {c} in
/-- Extensions without dots are clear, if the one of the files is listed once. -/
theorem Named.of_dotless {extensions : List String} (hlength : c.texts.length = c.parts.length)
    (hparts : ∀ part ∈ c.parts, Path.Part part ∧ part ≠ "" ∧ part ≠ c.extension)
    (hextension : Path.Part c.extension ∧ c.extension ≠ "")
    (honce : extensions.count c.extension = 1) (hdotless : ∀ e ∈ extensions, '.' ∉ e.toList) :
    c.Named extensions := by
  have hknown : c.extension ∈ extensions := by
    rw [← List.count_pos_iff, honce]
    exact Nat.one_pos
  refine ⟨hlength, hparts, hextension, hknown, fun k hk => ?_⟩
  have hpart : ∀ (i : Nat) (e : String), '.' ∉ e.toList →
      ∀ part ∈ c.parts.take i ++ [e], '.' ∉ part.toList := by
    intro i e he part hmem
    rcases List.mem_append.mp hmem with hmem | hmem
    · exact (hparts part (List.mem_of_mem_take hmem)).1.dotless
    · rw [List.mem_singleton.mp hmem]
      exact he
  have hne : c.parts.take (k + 1) ≠ [] := by
    intro hnil
    have hparts : c.parts = [] := by simpa using hnil
    rw [hlength, hparts] at hk
    cases hk
  have hsame : ∀ e ∈ extensions,
      decide (∃ j < c.texts.length, c.stem k ++ "." ++ e = c.name j) = true →
        (e == c.extension) = true := by
    intro e he hname
    obtain ⟨j, -, hname⟩ := of_decide_eq_true hname
    rw [stem, ← Text.joined_append_singleton "." hne] at hname
    have hlist := Text.joined_injective rfl (hpart _ e (hdotless e he))
      (hpart _ _ hextension.1.dotless) (by simp) (by simp) hname
    simpa using (List.append_inj_right' hlist rfl)
  rw [← List.countP_eq_length_filter, ← honce]
  exact List.countP_mono_left hsame

/-- A tree has the files in a directory, and nothing else there. -/
structure In (t : FileTree) (extensions : List String) : Prop extends c.Named extensions where
  within : t.IsDirectory c.directory
  files : ∀ k, (hk : k < c.texts.length) →
    t.nodeIn? c.directory (c.name k) = some (.file c.texts[k].toUTF8)
  only : ∀ name, (t.nodeIn? c.directory name).isSome → ∃ k < c.texts.length, name = c.name k

namespace In

variable {c} {t : FileTree} {extensions : List String} (h : c.In t extensions)
include h

/-! ## Files -/

theorem nodeIn?_ne_link (name target : String) :
    t.nodeIn? c.directory name ≠ some (.link target) := by
  intro hlink
  obtain ⟨k, hk, rfl⟩ := h.only name (by simp [hlink])
  rw [h.files k hk] at hlink
  cases hlink

theorem isFile_iff {name : String} (hname : Path.Plain name) :
    t.isFile (FileTree.entryPath c.directory name) ↔ ∃ k < c.texts.length, name = c.name k := by
  rw [FileTree.isFile_entry h.within hname (h.nodeIn?_ne_link name)]
  constructor
  · rintro ⟨content, hfile⟩
    exact h.only name (by simp [hfile])
  · rintro ⟨k, hk, rfl⟩
    exact ⟨_, h.files k hk⟩

/-- The name that a file inherits from is no file itself. -/
theorem isFile_stem {k : Nat} (hk : k < c.texts.length) :
    t.isFile (FileTree.entryPath c.directory (c.stem k)) = false := by
  rw [← Bool.not_eq_true, h.isFile_iff (h.plain_stem hk)]
  rintro ⟨j, -, hname⟩
  exact h.stem_ne_name hk j hname

/-- An extension that has a slash gives no name of a file, and no path to one. -/
theorem isFile_slashed {k : Nat} (hk : k < c.texts.length) {e : String} (he : '/' ∈ e.toList) :
    t.isFile (Path.join (Text.joined "/" c.directory) (c.stem k ++ "." ++ e)) = false := by
  obtain ⟨before, after, hsplit, hbefore⟩ := List.eq_append_cons_of_mem he
  have hpath : c.stem k ++ "." ++ e =
      c.stem k ++ "." ++ String.ofList before ++ "/" ++ String.ofList after := by
    rw [← String.toList_inj]
    simp [hsplit]
  have hplain : Path.Plain (c.stem k ++ "." ++ String.ofList before) :=
    (h.plain_stem hk).extended (by simpa using hbefore)
  rw [hpath]
  refine FileTree.isFile_below h.within hplain (fun n hn => ?_) _
  obtain ⟨j, hj, hname⟩ := h.only _ (by rw [hn]; rfl)
  rw [hname, h.files j hj] at hn
  exact ⟨_, (Option.some.inj hn).symm⟩

theorem isFile_extended {k : Nat} (hk : k < c.texts.length) (e : String) :
    t.isFile (Path.join (Text.joined "/" c.directory) (c.stem k ++ "." ++ e)) =
      decide (∃ j < c.texts.length, c.stem k ++ "." ++ e = c.name j) := by
  by_cases he : '/' ∈ e.toList
  · rw [h.isFile_slashed hk he, eq_comm, decide_eq_false_iff_not]
    rintro ⟨j, -, hname⟩
    have hslash := (h.plain_name j).slashless
    rw [← hname] at hslash
    simp [he] at hslash
  · have hplain := (h.plain_stem hk).extended he
    rw [Path.join_path h.within.plain hplain.starts.2, Bool.eq_iff_iff, decide_eq_true_iff]
    exact h.isFile_iff hplain

/-- Of the files that the name could mean with an extension, only one is there. -/
theorem filter_isFile {k : Nat} (hk : k + 1 < c.texts.length) :
    (extensions.map fun e => Path.join (Text.joined "/" c.directory)
      (c.stem k ++ "." ++ e)).filter t.isFile = [c.path k] := by
  have hk' := Nat.lt_of_succ_lt hk
  have hclear := h.clear k hk
  have hmem : c.extension ∈ extensions.filter fun e =>
      ∃ j < c.texts.length, c.stem k ++ "." ++ e = c.name j :=
    List.mem_filter.mpr ⟨h.known, decide_eq_true ⟨k, hk', (h.name_eq hk').symm⟩⟩
  have honly : (extensions.filter fun e =>
      ∃ j < c.texts.length, c.stem k ++ "." ++ e = c.name j) = [c.extension] := by
    match hfound : extensions.filter fun e =>
        ∃ j < c.texts.length, c.stem k ++ "." ++ e = c.name j with
    | [] => simp [hfound] at hmem
    | [e] =>
      rw [hfound] at hmem
      rw [List.mem_singleton.mp hmem]
    | e :: e' :: rest => simp [hfound] at hclear
  have hfilter : extensions.filter (t.isFile ∘ fun e =>
      Path.join (Text.joined "/" c.directory) (c.stem k ++ "." ++ e)) = [c.extension] :=
    (List.filter_congr fun e _ => h.isFile_extended hk' e).trans honly
  rw [List.filter_map, hfilter, List.map_singleton, ← h.name_eq hk',
    Path.join_path h.within.plain (h.plain_name k).starts.2]
  rfl

/-! ## Parents -/

open Loader
open FileTree (reader)

variable (bound : Nat)

theorem directoryOf_path (k : Nat) : directoryOf (c.path k) = Text.joined "/" c.directory :=
  directoryOf_entry h.within (h.plain_name k)

theorem baseName?_path {k : Nat} (hk : k < c.texts.length) :
    baseName? (c.path k) = .ok (if k = 0 then none else some (c.stem (k - 1))) := by
  have hfull : ((c.parts.take (k + 1) ++ [c.extension]).any fun s => s.isEmpty) = false := by
    rw [List.any_eq_false]
    intro part hpart
    simpa using h.nonempty_of_mem part hpart
  have hlt : k < c.parts.length := h.length ▸ hk
  have hlength : (c.parts.take (k + 1) ++ [c.extension]).length = k + 2 := by
    rw [List.length_append, List.length_take, List.length_singleton]
    omega
  rw [baseName?, path, FileTree.entryPath, Path.fileName?_path h.within.plain (h.plain_name k)]
  simp only [name, Path.fields_name h.part_of_mem (by simp), hfull, Bool.false_eq_true, if_false,
    hlength, Nat.add_sub_cancel]
  cases k with
  | zero => rfl
  | succ k =>
    rw [if_neg (by omega), if_neg (Nat.succ_ne_zero k), Nat.add_sub_cancel,
      List.take_append_of_le_length (by simp; omega), List.take_take, Nat.min_eq_left (by omega)]
    rfl

theorem resolve_stem {k : Nat} (hk : k + 1 < c.texts.length) :
    resolve (reader bound) extensions (Text.joined "/" c.directory) (c.stem k) t =
      (.ok (c.path k), t) := by
  have hplain := h.plain_stem (Nat.lt_of_succ_lt hk)
  rw [resolve, Path.join_path h.within.plain hplain.starts.2, run_bind (t.isFile_reader bound _),
    ← FileTree.entryPath, h.isFile_stem (Nat.lt_of_succ_lt hk)]
  simp only [Bool.false_eq_true, if_false]
  rw [run_bind (filesAmong_tree bound t _), h.filter_isFile hk]
  rfl

theorem namedParent_path {k : Nat} (hk : k < c.texts.length) :
    namedParent (reader bound) extensions (c.path k) t = (.ok (c.parents k), t) := by
  rw [namedParent, h.baseName?_path hk, h.directoryOf_path k]
  cases k with
  | zero => rfl
  | succ k =>
    simp only [Nat.succ_ne_zero, if_false, Nat.succ_sub_one]
    rw [resolveAll, run_bind (h.resolve_stem bound hk)]
    rfl

theorem conventional_path {k : Nat} (hk : k < c.texts.length) (links : Nat) :
    conventional (reader bound) extensions links (c.path k) t = (.ok (c.parents k), t) := by
  have hlink : t.linkTarget? (c.path k) = none :=
    FileTree.linkTarget?_entry h.within (h.plain_name k) (h.nodeIn?_ne_link _)
  cases links with
  | zero =>
    rw [conventional, run_bind (t.linkTarget?_reader bound _), hlink]
    exact h.namedParent_path bound hk
  | succ links =>
    rw [conventional, run_bind (t.linkTarget?_reader bound _), hlink]
    exact h.namedParent_path bound hk

/-! ## Loading a file after those before it -/

theorem key_injective {j k : Nat} (hj : j < c.texts.length) (hk : k < c.texts.length)
    (heq : c.key t j = c.key t k) : j = k :=
  h.name_injective hj hk <|
    Path.join_injective (h.plain_name j).starts.2 (h.plain_name k).starts.2 heq

theorem ofPath_path {format : Format} (hformat : Format.ofName c.extension = .ok format) {k : Nat}
    (hk : k < c.texts.length) : Format.ofPath (c.path k) = .ok format := by
  have hextension : Path.extension? (c.path k) = some c.extension :=
    Path.extension?_path h.part_of_mem_take h.within.plain h.extension.1 (h.take_ne_nil hk)
      fun part hpart => (h.parts part (List.mem_of_mem_take hpart)).2.1
  rw [Format.ofPath, hextension]
  simp only [hformat]
  rfl

end In

/-! ## A tree for a chain -/

section
variable (home : String)

def fileNodes : List (FileTree.Place × FileTree.Node) :=
  c.texts.mapIdx fun k text => (Path.segments home ++ (c.directory ++ [c.name k]), .file text.toUTF8)

/-- The tree of the files of a chain and the directories that lead to them. -/
def tree : FileTree :=
  ⟨home, c.fileNodes home ++ (List.range' 1 c.directory.length).map fun i =>
    (Path.segments home ++ c.directory.take i, .directory)⟩

theorem mem_nodes_tree {segments : List String} {n : FileTree.Node} :
    ((c.tree home).here ++ segments, n) ∈ (c.tree home).nodes ↔
      (∃ k, ∃ hk : k < c.texts.length,
        segments = c.directory ++ [c.name k] ∧ n = .file c.texts[k].toUTF8) ∨
      ∃ i < c.directory.length, segments = c.directory.take (i + 1) ∧ n = .directory := by
  have hhere : (c.tree home).here = Path.segments home := rfl
  rw [hhere, tree, List.mem_append, fileNodes, List.mem_mapIdx]
  refine or_congr ?_ ?_
  · constructor
    · rintro ⟨k, hk, heq⟩
      obtain ⟨hsegments, rfl⟩ := Prod.mk.inj heq
      exact ⟨k, hk, (List.append_cancel_left hsegments).symm, rfl⟩
    · rintro ⟨k, hk, rfl, rfl⟩
      exact ⟨k, hk, rfl⟩
  · rw [List.mem_map]
    constructor
    · rintro ⟨i, hi, heq⟩
      obtain ⟨hsegments, rfl⟩ := Prod.mk.inj heq
      obtain ⟨hpos, hlt⟩ := List.mem_range'_1.mp hi
      obtain ⟨i, rfl⟩ := Nat.exists_eq_add_of_le' hpos
      exact ⟨i, by omega, (List.append_cancel_left hsegments).symm, rfl⟩
    · rintro ⟨i, hi, rfl, rfl⟩
      exact ⟨i + 1, List.mem_range'_1.mpr (by omega), rfl⟩

theorem ne_take_directory (name : String) (i : Nat) :
    c.directory ++ [name] ≠ c.directory.take i := by
  intro heq
  have hlength := congrArg List.length heq
  rw [List.length_append, List.length_singleton, List.length_take] at hlength
  omega

variable {c} in
/-- Every chain of files that are named as they should is in a tree. -/
theorem Named.in_tree {extensions : List String} (h : c.Named extensions)
    (hplain : ∀ s ∈ c.directory, Path.Plain s) : c.In (c.tree home) extensions := by
  have hfile : ∀ {name : String} {n : FileTree.Node},
      ((c.tree home).here ++ (c.directory ++ [name]), n) ∈ (c.tree home).nodes ↔
        ∃ k, ∃ hk : k < c.texts.length, name = c.name k ∧ n = .file c.texts[k].toUTF8 := by
    intro name n
    rw [mem_nodes_tree, or_iff_left]
    · simp
    · rintro ⟨i, -, heq, -⟩
      exact c.ne_take_directory name _ heq
  refine { h with within := ⟨hplain, ?_⟩, files := ?_, only := ?_ }
  · rintro (_ | i) hi
    · simp [FileTree.node?]
    · rw [FileTree.node?_eq_lookup _ (List.ne_nil_of_length_pos (by simp; omega))]
      refine lookup_of_unique ((c.mem_nodes_tree home).mpr (.inr ⟨i, hi, rfl, rfl⟩)) ?_
      intro n hn
      rcases (c.mem_nodes_tree home).mp hn with ⟨k, hk, heq, -⟩ | ⟨_, _, _, rfl⟩
      · exact absurd heq.symm (c.ne_take_directory _ _)
      · rfl
  · intro k hk
    rw [FileTree.nodeIn?_eq_lookup]
    refine lookup_of_unique (hfile.mpr ⟨k, hk, rfl, rfl⟩) ?_
    intro n hn
    obtain ⟨j, hj, hname, rfl⟩ := hfile.mp hn
    obtain rfl := h.name_injective hk hj hname
    rfl
  · intro name hname
    obtain ⟨n, hn⟩ := Option.isSome_iff_exists.mp hname
    rw [FileTree.nodeIn?_eq_lookup] at hn
    obtain ⟨k, hk, rfl, -⟩ := hfile.mp (mem_of_lookup hn)
    exact ⟨k, hk, rfl⟩

end

end FileChain

/-- The texts of a chain hold layers of documents, none of which declares its parents. -/
structure FileChain.Holds (c : FileChain) (format : Format) (layers : List (List Value)) : Prop where
  written : Format.ofName c.extension = .ok format
  decoded : List.Forall₂ (fun text values => format.decodeStream text = .ok values) c.texts layers
  undeclared : ∀ values ∈ layers, ∀ v ∈ values, v.entry? Directive.parent = none

namespace Loader

open Evaluation (chain lastIds)
open FileTree (reader)

/-- What a loader has after the files below a number. -/
structure LoadedTo (c : FileChain) (layers : List (List Value)) (k : Nat) (l : Loader) : Prop where
  corpus : l.corpus = chain c.label {} 0 [] (layers.take k)
  order : l.order = List.range l.corpus.size

section
variable {c : FileChain} {layers : List (List Value)}

theorem LoadedTo.addFile {k : Nat} {l : Loader} (hl : LoadedTo c layers k l)
    (hk : k < layers.length) (key : String) : LoadedTo c layers (k + 1)
      (l.addFile key (c.path k) layers[k] (lastIds 0 [] (layers.take k))) := by
  refine ⟨?_, order_addFile _ _ _ _ hl.order⟩
  rw [corpus_addFile, hl.corpus, List.take_succ_eq_append_getElem hk, Evaluation.chain_concat,
    List.length_take, Nat.min_eq_left (Nat.le_of_lt hk), Nat.zero_add]
  rfl

variable {t : FileTree} {extensions : List String} {format : Format} (h : c.In t extensions)
  (hholds : c.Holds format layers) (bound : Nat)
include h hholds

theorem survey_path {k : Nat} (hk : k < layers.length) :
    survey (reader bound) extensions (c.path k) t = (.ok (layers[k], c.parents k), t) := by
  have hk' : k < c.texts.length := hholds.decoded.length_eq ▸ hk
  have hvalues : format.decodeStream c.texts[k] = .ok layers[k] := hholds.decoded.get hk' hk
  have hread : readDocuments (reader bound) (c.path k) t = (.ok layers[k], t) :=
    readDocuments_entry bound h.within (h.plain_name k) (h.ofPath_path hholds.written hk')
      (h.files k hk') hvalues
  have hdeclared := declared_none none (hholds.undeclared layers[k] (List.getElem_mem hk))
  have hparents : parentsOf (reader bound) extensions (c.path k) layers[k] t =
      (.ok (c.parents k), t) := by
    simp only [parentsOf, hdeclared]
    exact h.conventional_path bound hk' maxLinks
  rw [survey, run_bind hread]
  simp only
  rw [run_bind hparents]
  rfl

/-- A file is loaded after its parents. -/
theorem loadWithin_of_parents {k depth : Nat} (hk : k < layers.length) {stack : List String}
    (hkey : c.key t k ∉ stack) {l : Loader} (hl : LoadedTo c layers k l)
    (hparents : loadAll (loadWithin (reader bound) depth) (c.parents k)
      { extensions, stack := stack ++ [c.key t k] } t =
        ((.ok (lastIds 0 [] (layers.take k)), l), t)) :
    ∃ l', loadWithin (reader bound) (depth + 1) (c.path k) { extensions, stack } t =
        ((.ok (lastIds 0 [] (layers.take (k + 1))), l'), t) ∧ LoadedTo c layers (k + 1) l' := by
  have hk' : k < c.texts.length := hholds.decoded.length_eq ▸ hk
  have hidentity : identity (reader bound) (c.path k) t = (c.key t k, t) :=
    identity_entry bound h.within (h.plain_name k)
  have hids : List.range' l.corpus.size layers[k].length = lastIds 0 [] (layers.take (k + 1)) := by
    rw [List.take_succ_eq_append_getElem hk, Evaluation.lastIds_concat, hl.corpus,
      Evaluation.size_chain]
    rfl
  have hpopped : LoadedTo c layers k l.pop := ⟨hl.corpus, hl.order⟩
  refine ⟨_, ?_, hpopped.addFile hk (c.key t k)⟩
  rw [loadWithin, run_bind hidentity, if_neg (by simpa using hkey)]
  simp only [List.lookup_nil]
  rw [run_bind (survey_path h hholds bound hk)]
  simp only [push]
  rw [run_bind hparents]
  simp only [hids]
  rfl

/-- A file is loaded with all before it, if the depth is enough for them and none of them is among
those that it is loaded for. -/
theorem loadWithin_path : ∀ {k : Nat}, k < layers.length → ∀ {depth : Nat} {stack : List String},
    k < depth → (∀ j ≤ k, c.key t j ∉ stack) →
      ∃ l, loadWithin (reader bound) depth (c.path k) { extensions, stack } t =
          ((.ok (lastIds 0 [] (layers.take (k + 1))), l), t) ∧ LoadedTo c layers (k + 1) l
  | _, _, 0, _, hdepth, _ => absurd hdepth (Nat.not_lt_zero _)
  | 0, hk, depth + 1, stack, _, hstack =>
    loadWithin_of_parents h hholds bound hk (hstack 0 (Nat.le_refl 0)) ⟨rfl, rfl⟩ rfl
  | k + 1, hk, depth + 1, stack, hdepth, hstack => by
    have hk' : k + 1 < c.texts.length := hholds.decoded.length_eq ▸ hk
    have hbelow : ∀ j ≤ k, c.key t j ∉ stack ++ [c.key t (k + 1)] := by
      intro j hj hmem
      rcases List.mem_append.mp hmem with hmem | hmem
      · exact hstack j (Nat.le_succ_of_le hj) hmem
      · have hsame := h.key_injective (by omega) hk' (List.mem_singleton.mp hmem)
        omega
    obtain ⟨l, hload, hl⟩ := loadWithin_path (Nat.lt_of_succ_lt hk)
      (Nat.lt_of_succ_lt_succ hdepth) hbelow
    refine loadWithin_of_parents h hholds bound hk (hstack _ (Nat.le_refl _)) hl ?_
    rw [FileChain.parents, loadAll, run_bind hload]
    show ((Except.ok (lastIds 0 [] (layers.take (k + 1)) ++ []), l), t) = _
    rw [List.append_nil]

end

end Loader

end Overlay
