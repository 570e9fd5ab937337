import Overlay.Files.Tree
import Overlay.Proofs.Files.Path

/-!
# Entries of directories

A path through directories leads to the entry that it names, whether or not there is one, unless
that is a link. So what a tree says of the path is what it has there.
-/

namespace Overlay

section
variable {α β : Type} [BEq α] [LawfulBEq α] {l : List (α × β)} {k : α} {b : β}

theorem mem_of_lookup (h : l.lookup k = some b) : (k, b) ∈ l := by
  obtain ⟨before, after, rfl, -⟩ := List.lookup_eq_some_iff.mp h
  simp

theorem lookup_of_unique (h : (k, b) ∈ l) (hunique : ∀ other, (k, other) ∈ l → other = b) :
    l.lookup k = some b := by
  cases hother : l.lookup k with
  | none => simpa using List.lookup_eq_none_iff.mp hother _ h
  | some other => rw [hunique other (mem_of_lookup hother)]

end

namespace FileTree

variable (t : FileTree)

/-- Segments that lead from the working directory through directories alone. -/
structure IsDirectory (directory : List String) : Prop where
  plain : ∀ s ∈ directory, Path.Plain s
  there : ∀ i ≤ directory.length, t.node? (t.here ++ directory.take i) = some .directory

def nodeIn? (directory : List String) (name : String) : Option Node :=
  t.node? (t.here ++ directory ++ [name])

/-- Places below the working directory are there only if they are listed. -/
theorem node?_eq_lookup {segments : List String} (hne : segments ≠ []) :
    t.node? (t.here ++ segments) = t.nodes.lookup (t.here ++ segments) := by
  refine if_neg fun hprefix => hne ?_
  have hlength := hprefix.length_le
  rw [List.length_append] at hlength
  exact List.eq_nil_of_length_eq_zero (by omega)

theorem nodeIn?_eq_lookup (directory : List String) (name : String) :
    t.nodeIn? directory name = t.nodes.lookup (t.here ++ (directory ++ [name])) := by
  rw [nodeIn?, List.append_assoc, t.node?_eq_lookup (by simp)]

/-- Whatever is not a directory is listed. -/
theorem mem_nodes_of_node? {p : Place} {n : Node} (h : t.node? p = some n) (hn : n ≠ .directory) :
    (p, n) ∈ t.nodes := by
  unfold node? at h
  split at h
  · cases h
    exact absurd rfl hn
  · exact mem_of_lookup h

def entryPath (directory : List String) (name : String) : String :=
  Text.joined "/" (directory ++ [name])

section
variable (follow : Bool) (next : Place → List String → Except Refusal Place)

theorem walkWith_directories (rest : List String) : ∀ (segments : List String) (start : Place),
    (∀ s ∈ segments, Path.Plain s) →
    (∀ i ≤ segments.length, t.node? (start ++ segments.take i) = some .directory) →
      t.walkWith follow next start (segments ++ rest) =
        t.walkWith follow next (start ++ segments) rest
  | [], start, _, _ => by rw [List.nil_append, List.append_nil]
  | s :: segments, start, hplain, hthere => by
    obtain ⟨hs, hplain⟩ := List.forall_mem_cons.mp hplain
    have hstart : t.node? start = some .directory := by
      simpa using hthere 0 (Nat.zero_le _)
    have hchild : t.node? (start ++ [s]) = some .directory := by
      simpa using hthere 1 (by simp)
    have hbelow : ∀ i ≤ segments.length,
        t.node? (start ++ [s] ++ segments.take i) = some .directory := by
      intro i hi
      simpa using hthere (i + 1) (by simpa using hi)
    have hstep : t.walkWith follow next start (s :: (segments ++ rest)) =
        t.walkWith follow next (start ++ [s]) (segments ++ rest) := by
      rw [walkWith, hstart]
      simp [hs.busy, hs.notAbove, hchild]
    rw [List.cons_append, hstep, walkWith_directories rest segments _ hplain hbelow]
    simp

end

theorem locate_eq (follow : Bool) {path : String} (hne : path ≠ "") :
    t.locate follow path = t.walk follow 40 (origin path t.here) (Path.fields path) :=
  if_neg hne

theorem locate_relative (follow : Bool) {path : String} {segments : List String}
    (hstarts : Path.Starts path) (hfields : Path.fields path = segments) :
    t.locate follow path = t.walkWith follow (t.walk follow 39) t.here segments := by
  rw [t.locate_eq follow hstarts.1, hfields, origin, hstarts.2]
  rfl

variable {t} {directory : List String} (hdirectory : t.IsDirectory directory)
include hdirectory

theorem IsDirectory.node? : t.node? (t.here ++ directory) = some .directory := by
  simpa using hdirectory.there _ (Nat.le_refl _)

theorem locate_directory :
    t.locate true (Path.orHere (Text.joined "/" directory)) = .ok (t.here ++ directory) := by
  by_cases hne : directory = []
  · have hstarts : Path.Starts "." := ⟨by decide, Path.isAbsolute_of_slashless (by decide)⟩
    have hfields : Path.fields "." = ["."] := rfl
    have hhere : t.node? t.here = some .directory := by simpa using hdirectory.there 0 (Nat.zero_le _)
    rw [hne, List.append_nil]
    refine (t.locate_relative true hstarts hfields).trans ?_
    rw [walkWith, hhere]
    rfl
  · have hstarts := Path.starts_path hne fun s hs => (hdirectory.plain s hs).starts
    have hwalk := walkWith_directories t true (t.walk true 39) [] directory t.here hdirectory.plain
      hdirectory.there
    rw [List.append_nil] at hwalk
    rw [Path.orHere, if_neg hstarts.1,
      t.locate_relative true hstarts (Path.fields_path hdirectory.plain hne), hwalk]
    rfl

theorem canonical?_directory : t.canonical? (Path.orHere (Text.joined "/" directory)) =
    some (t.pathTo (t.here ++ directory)) := by
  rw [canonical?, look, locate_directory hdirectory]
  simp only [bind, Except.bind, hdirectory.node?]
  rfl

variable {name : String} (hname : Path.Plain name)
include hname

section
variable (hlink : ∀ target, t.nodeIn? directory name ≠ some (.link target))
include hlink

/-- From a directory, the walk goes on at the entry, if there is one. -/
theorem walkWith_entry (follow : Bool) (next : Place → List String → Except Refusal Place)
    (rest : List String) : t.walkWith follow next t.here (directory ++ name :: rest) =
      if (t.nodeIn? directory name).isSome then
        t.walkWith follow next (t.here ++ directory ++ [name]) rest
      else if rest.isEmpty then .ok (t.here ++ directory ++ [name])
      else .error .missing := by
  rw [walkWith_directories t follow next _ directory t.here hdirectory.plain hdirectory.there,
    walkWith, hdirectory.node?]
  rw [if_neg (by simp [hname.busy]), if_neg hname.notAbove, ← nodeIn?]
  cases hentry : t.nodeIn? directory name with
  | none => rfl
  | some n =>
    cases n with
    | link target => exact absurd hentry (hlink target)
    | file content => rfl
    | directory => rfl

theorem locate_entry (follow : Bool) :
    t.locate follow (entryPath directory name) = .ok (t.here ++ directory ++ [name]) := by
  have hplain : ∀ s ∈ directory ++ [name], Path.Plain s := by
    simpa [or_imp, forall_and, hname] using hdirectory.plain
  have hne : directory ++ [name] ≠ [] := by simp
  have hstarts := Path.starts_path hne fun s hs => (hplain s hs).starts
  rw [entryPath, t.locate_relative follow hstarts (Path.fields_path hplain hne),
    walkWith_entry hdirectory hname hlink]
  split <;> rfl

theorem look_entry : t.look (entryPath directory name) =
    match t.nodeIn? directory name with
    | some n => .ok (t.here ++ directory ++ [name], n)
    | none => .error .missing := by
  rw [look, locate_entry hdirectory hname hlink]
  rfl

theorem isFile_entry : t.isFile (entryPath directory name) ↔
    ∃ content, t.nodeIn? directory name = some (.file content) := by
  rw [isFile, look_entry hdirectory hname hlink]
  cases t.nodeIn? directory name with
  | none => simp
  | some n => cases n <;> simp

theorem linkTarget?_entry : t.linkTarget? (entryPath directory name) = none := by
  rw [linkTarget?, locate_entry hdirectory hname hlink]
  dsimp only
  rw [← nodeIn?]
  cases hentry : t.nodeIn? directory name with
  | none => rfl
  | some n =>
    cases n with
    | link target => exact absurd hentry (hlink target)
    | file content => rfl
    | directory => rfl

end

/-- Nothing is below an entry that is no directory. -/
theorem isFile_below (hnot : ∀ n, t.nodeIn? directory name = some n → ∃ content, n = .file content)
    (s : String) :
    t.isFile (Path.join (Text.joined "/" directory) (name ++ "/" ++ s)) = false := by
  have hlink : ∀ target, t.nodeIn? directory name ≠ some (.link target) := by
    intro target htarget
    obtain ⟨content, hcontent⟩ := hnot _ htarget
    cases hcontent
  have hbelow := Path.starts_below hname s
  have hstarts : Path.Starts (entryPath directory (name ++ "/" ++ s)) := by
    refine Path.starts_path (by simp) fun segment hsegment => ?_
    rcases List.mem_append.mp hsegment with hsegment | hsegment
    · exact (hdirectory.plain segment hsegment).starts
    · exact List.mem_singleton.mp hsegment ▸ hbelow
  obtain ⟨first, rest, hrest⟩ := List.exists_cons_of_ne_nil (Path.fields_ne_nil s)
  have hrefused : ∃ refusal, t.locate true (entryPath directory (name ++ "/" ++ s)) =
      .error refusal := by
    rw [t.locate_relative true hstarts (Path.fields_below hname s hdirectory.plain),
      walkWith_entry hdirectory hname hlink, hrest]
    cases hentry : t.nodeIn? directory name with
    | none => exact ⟨.missing, rfl⟩
    | some n =>
      obtain ⟨content, rfl⟩ := hnot n hentry
      refine ⟨.notDirectory, ?_⟩
      rw [nodeIn?] at hentry
      simp only [Option.isSome_some, if_true]
      rw [walkWith, hentry]
  obtain ⟨refusal, hrefused⟩ := hrefused
  rw [Path.join_path hdirectory.plain hbelow.2, ← entryPath, isFile, look, hrefused]
  rfl

theorem readText_entry {text : String}
    (hfile : t.nodeIn? directory name = some (.file text.toUTF8)) :
    t.readText (entryPath directory name) = .ok text := by
  have hlink : ∀ target, t.nodeIn? directory name ≠ some (.link target) := by simp [hfile]
  have hdecode : String.fromUTF8? text.toUTF8 = some text := dif_pos text.isValidUTF8
  rw [readText, look_entry hdirectory hname hlink, hfile]
  simp only [bind, Except.bind, hdecode]
  rfl

end FileTree

end Overlay
