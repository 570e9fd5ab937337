import Overlay.Proofs.Files.Loads

/-!
# What identifies a file

A file goes by its directory without links and its name. The way to the directory is the way to the
file up to the name, so the file that can be read at a path is named by an entry of that directory.
Of files that can be read, no more can thus be told apart than a tree has nodes.
-/

namespace Overlay

namespace FileTree

variable {t : FileTree} {q : Place}

/-! ## Walks -/

section
variable {next : Place → List String → Except Refusal Place}

theorem node?_of_walkWith_cons {p : Place} {s : String} {rest : List String} {follow : Bool}
    (h : t.walkWith follow next p (s :: rest) = .ok q) : t.node? p = some .directory := by
  rw [walkWith] at h
  split at h
  · assumption
  · cases h
  · cases h

theorem node?_of_walkWith {p : Place} {segments : List String} {follow : Bool}
    (hq : t.node? q = some .directory) (h : t.walkWith follow next p segments = .ok q) :
    t.node? p = some .directory := by
  cases segments with
  | nil => exact Except.ok.inj h ▸ hq
  | cons s rest => exact node?_of_walkWith_cons h

theorem walkWith_cons {p : Place} (hp : t.node? p = some .directory) (s : String)
    (rest : List String) : t.walkWith true next p (s :: rest) =
      if Path.isIdle s then t.walkWith true next p rest
      else if s = ".." then t.walkWith true next p.dropLast rest
      else
        match t.node? (p ++ [s]) with
        | some (.link target) => next (origin target p) (Path.fields target ++ rest)
        | some _ => t.walkWith true next (p ++ [s]) rest
        | none => if rest.isEmpty then .ok (p ++ [s]) else .error .missing := by
  rw [walkWith, hp]
  cases t.node? (p ++ [s]) with
  | none => rfl
  | some n => cases n <;> simp

theorem walkWith_idle {p : Place} (hp : t.node? p = some .directory) :
    ∀ {segments : List String}, (∀ s ∈ segments, Path.isIdle s) →
      t.walkWith true next p segments = .ok p
  | [], _ => rfl
  | s :: segments, h => by
    obtain ⟨hs, hsegments⟩ := List.forall_mem_cons.mp h
    rw [walkWith_cons hp, if_pos hs]
    exact walkWith_idle hp hsegments

/-- A walk ends with a walk along its last segments, if it does so after each link. -/
theorem walkWith_append {ends : Place → Prop} {rest : List String} (hrest : rest ≠ [])
    (hends : ∀ p, t.walkWith true next p rest = .ok q → ends p)
    (hnext : ∀ p segments, next p (segments ++ rest) = .ok q →
      ∃ d, next p segments = .ok d ∧ ends d) :
    ∀ (segments : List String) (p : Place), t.walkWith true next p (segments ++ rest) = .ok q →
      ∃ d, t.walkWith true next p segments = .ok d ∧ ends d
  | [], p, h => ⟨p, rfl, hends p h⟩
  | s :: segments, p, h => by
    have ih := walkWith_append hrest hends hnext segments
    rw [List.cons_append] at h
    have hp := node?_of_walkWith_cons h
    rw [walkWith_cons hp] at h ⊢
    split
    · rw [if_pos ‹_›] at h
      exact ih p h
    rw [if_neg ‹_›] at h
    split
    · rw [if_pos ‹_›] at h
      exact ih _ h
    rw [if_neg ‹_›] at h
    cases hchild : t.node? (p ++ [s]) with
    | none => simp [hchild, hrest] at h
    | some n =>
      rw [hchild] at h
      cases n with
      | link target => exact hnext _ _ (by rwa [List.append_assoc])
      | file content => exact ih _ h
      | directory => exact ih _ h

theorem walk_append {rest : List String} (hrest : rest ≠ []) : ∀ (links : Nat) (p : Place)
    (segments : List String), t.walk true links p (segments ++ rest) = .ok q →
      ∃ d, t.walk true links p segments = .ok d ∧ ∃ left, t.walk true left d rest = .ok q
  | 0, p, segments, h =>
    walkWith_append hrest (fun _ hp => ⟨0, hp⟩) (fun _ _ h => by cases h) segments p h
  | links + 1, p, segments, h =>
    walkWith_append hrest (fun _ hp => ⟨links + 1, hp⟩) (walk_append hrest links) segments p h

/-- Segments that say nothing do not matter to a walk that leads to a directory. -/
theorem walkWith_busy (hq : t.node? q = some .directory)
    (hnext : ∀ p segments, next p segments = .ok q ↔ next p (Path.busy segments) = .ok q) :
    ∀ (segments : List String) (p : Place), t.walkWith true next p segments = .ok q ↔
      t.walkWith true next p (Path.busy segments) = .ok q
  | [], p => Iff.rfl
  | s :: segments, p => by
    have ih := walkWith_busy hq hnext segments
    by_cases hp : t.node? p = some .directory
    swap
    · exact iff_of_false (mt (node?_of_walkWith hq) hp) (mt (node?_of_walkWith hq) hp)
    by_cases hidle : Path.isIdle s
    · rw [Path.busy_cons_idle hidle, walkWith_cons hp, if_pos hidle]
      exact ih p
    rw [Path.busy_cons (by simpa using hidle), walkWith_cons hp, walkWith_cons hp, if_neg hidle,
      if_neg hidle]
    split
    · exact ih _
    cases hchild : t.node? (p ++ [s]) with
    | none =>
      have hnot : ∀ rest : List String,
          ¬ (if rest.isEmpty then .ok (p ++ [s]) else .error .missing) =
            (.ok q : Except Refusal Place) := by
        intro rest h
        split at h
        · rw [Except.ok.inj h, hq] at hchild
          cases hchild
        · cases h
      exact iff_of_false (hnot _) (hnot _)
    | some n =>
      cases n with
      | link target =>
        simp only
        rw [hnext _ (_ ++ segments), hnext _ (_ ++ Path.busy segments), Path.busy_append,
          Path.busy_append, Path.busy_busy]
      | file content => exact ih _
      | directory => exact ih _

theorem walk_busy (hq : t.node? q = some .directory) : ∀ (links : Nat) (p : Place)
    (segments : List String), t.walk true links p segments = .ok q ↔
      t.walk true links p (Path.busy segments) = .ok q
  | 0, p, segments => walkWith_busy hq (fun _ _ => by simp) segments p
  | links + 1, p, segments => walkWith_busy hq (walk_busy hq links) segments p

end

/-! ## Entries that walks lead to -/

/-- A walk along a name, up to segments that say nothing, leads to a file only if the directory has
an entry of that name. -/
theorem exists_entry_of_walk {links : Nat} {p : Place} {name : String} {after : List String}
    {content : ByteArray} (hwalk : t.walk true links p (name :: after) = .ok q)
    (hfile : t.node? q = some (.file content)) (hidle : ∀ s ∈ after, Path.isIdle s)
    (hbusy : Path.isIdle name = false) (habove : name ≠ "..") :
    t.node? p = some .directory ∧ ∃ n, (p ++ [name], n) ∈ t.nodes := by
  obtain ⟨next, hnext⟩ : ∃ next, t.walkWith true next p (name :: after) = .ok q := by
    cases links with
    | zero => exact ⟨_, hwalk⟩
    | succ links => exact ⟨_, hwalk⟩
  have hp := node?_of_walkWith_cons hnext
  have hne : p ++ [name] ≠ q ∨ t.node? (p ++ [name]) = some (.file content) := by
    by_cases heq : p ++ [name] = q
    · exact .inr (heq ▸ hfile)
    · exact .inl heq
  rw [walkWith_cons hp, if_neg (by simp [hbusy]), if_neg habove] at hnext
  refine ⟨hp, ?_⟩
  cases hchild : t.node? (p ++ [name]) with
  | none =>
    simp only [hchild] at hnext hne
    split at hnext
    · exact absurd (Except.ok.inj hnext) (hne.resolve_right nofun)
    · cases hnext
  | some n =>
    by_cases hn : n = .directory
    · subst hn
      simp only [hchild] at hnext hne
      rw [walkWith_idle hchild hidle] at hnext
      exact absurd (Except.ok.inj hnext) (hne.resolve_right nofun)
    · exact ⟨n, t.mem_nodes_of_node? hchild hn⟩

/-- A path with the segments of a walk to a directory, but for those that say nothing, leads there. -/
theorem locate_of_walk {path : String} {segments : List String} (hne : path ≠ "")
    (hq : t.node? q = some .directory) (hwalk : t.walk true 40 (origin path t.here) segments = .ok q)
    (hbusy : Path.busy (Path.fields path) = Path.busy segments) : t.locate true path = .ok q := by
  rw [t.locate_eq true hne, walk_busy hq, hbusy, ← walk_busy hq]
  exact hwalk

/-- The file that a path leads to is named by an entry of the directory that the path is in. -/
theorem exists_entry_of_locate {path name : String} {content : ByteArray}
    (hlocate : t.locate true path = .ok q) (hfile : t.node? q = some (.file content))
    (hname : Path.fileName? path = some name) :
    ∃ directory p n, Path.parent? path = some directory ∧
      t.canonical? (Path.orHere directory) = some (t.pathTo p) ∧ (p ++ [name], n) ∈ t.nodes := by
  have hne : path ≠ "" := by
    rintro rfl
    cases hlocate
  obtain ⟨directory, before, after, h⟩ := Path.exists_of_fileName? hname
  have hwalk : t.walk true 40 (origin path t.here) (before ++ name :: after) = .ok q := by
    rw [← h.fields_eq, ← t.locate_eq true hne, hlocate]
  obtain ⟨p, hbefore, left, hleft⟩ := walk_append (List.cons_ne_nil _ _) 40 _ _ hwalk
  obtain ⟨hp, n, hn⟩ := exists_entry_of_walk hleft hfile h.idle h.busy_name h.notAbove
  have horigin : origin (Path.orHere directory) t.here = origin path t.here := by
    rw [origin, origin, Path.isAbsolute_orHere, h.start]
  have hto : t.locate true (Path.orHere directory) = .ok p := by
    refine locate_of_walk (Path.orHere_ne_empty directory) hp (horigin ▸ hbefore) ?_
    rw [Path.busy_fields_orHere, h.busy_eq]
  refine ⟨directory, p, n, h.parent, ?_, hn⟩
  rw [canonical?, look, hto]
  simp only [bind, Except.bind, hp]
  rfl

theorem exists_of_readText {path text : String} (h : t.readText path = .ok text) :
    ∃ q content, t.locate true path = .ok q ∧ t.node? q = some (.file content) := by
  rw [readText, look] at h
  cases hlocate : t.locate true path with
  | error refusal =>
    rw [hlocate] at h
    cases h
  | ok q =>
    rw [hlocate] at h
    simp only [bind, Except.bind] at h
    cases hnode : t.node? q with
    | none =>
      rw [hnode] at h
      cases h
    | some n =>
      rw [hnode] at h
      cases n with
      | file content => exact ⟨q, content, rfl, hnode⟩
      | directory => cases h
      | link target => cases h

end FileTree

namespace Loader

theorem exists_of_readDocuments {t : FileTree} {path : String} {values : List Value}
    (h : readDocuments t.answers path = .ok values) :
    (∃ name, Path.fileName? path = some name) ∧ ∃ text, t.readText path = .ok text := by
  constructor
  · rw [← Option.isSome_iff_exists, Option.isSome_iff_ne_none]
    intro hnone
    simp [readDocuments, Format.ofPath, Path.extension?, hnone] at h
  · cases hformat : Format.ofPath path with
    | error e => simp [readDocuments, hformat] at h
    | ok format =>
      cases htext : t.readText path with
      | ok text => exact ⟨text, rfl⟩
      | error refusal => simp [readDocuments, hformat, FileTree.answers, htext] at h

/-- What identifies a file that can be read is the place and the name of some entry. -/
theorem keyOf_mem (t : FileTree) {path : String} {values : List Value}
    (h : readDocuments t.answers path = .ok values) : keyOf t.answers path ∈ t.nodes.map fun e =>
      Path.join (t.pathTo e.1.dropLast) (e.1.getLastD "") := by
  obtain ⟨⟨name, hname⟩, text, htext⟩ := exists_of_readDocuments h
  obtain ⟨q, content, hlocate, hfile⟩ := FileTree.exists_of_readText htext
  obtain ⟨directory, p, n, hparent, hcanonical, hn⟩ :=
    FileTree.exists_entry_of_locate hlocate hfile hname
  have hasked : t.answers.canonical? (Path.orHere directory) = pure (some (t.pathTo p)) := hcanonical
  have hkey : keyOf t.answers path = Path.join (t.pathTo p) name := by
    rw [keyOf, identity_eq t.answers hparent hname, hasked]
    rfl
  refine List.mem_map.mpr ⟨_, hn, ?_⟩
  rw [List.dropLast_concat, List.getLastD_concat, hkey]

/-- A call of the loader, with no file on its stack, has a run without a limit. -/
theorem loads_load (t : FileTree) {bound : Nat} (hbound : t.nodes.length ≤ bound) (path : String)
    {l : Loader} (hstack : l.stack = []) : ∃ x l',
      load (FileTree.reader bound) path l t = ((x, l'), t) ∧ Loads t.answers [path] l x l' := by
  have hload := loadWithin_settles t bound (bound + 1) path l
  have hroom : Room (t.nodes.map fun e =>
      Path.join (t.pathTo e.1.dropLast) (e.1.getLastD "")) (bound + 1) l :=
    ⟨hstack ▸ List.nodup_nil, hstack ▸ List.nil_subset _, by simp; omega⟩
  have hloads := loads_loadAll (fun _ _ h => keyOf_mem t h) (bound + 1) [path] l hroom
  rw [loadAll_singleton] at hloads
  exact ⟨_, _, hload, hloads⟩

end Loader

end Overlay
