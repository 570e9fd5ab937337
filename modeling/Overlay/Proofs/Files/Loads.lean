import Mathlib.Data.List.Nodup
import Mathlib.Data.List.Perm.Subperm
import Overlay.Proofs.Files.Answers

/-!
# Loading without a limit

A run of the loader is a derivation of what loading some files comes to, with no limit to the depth.
From answers that do not change, each call of the loader has such a run if the depth that it allows
is more than the number of files that can be read: a file that is on the stack is not pushed again.
-/

namespace Overlay.Loader

section
variable (r : FileReader Id) (extensions : List String) (path : String)

def keyOf : String :=
  (identity r path).run

/-- The documents of a file and the paths of its parents. -/
def content : Result (List Value × List String) :=
  (survey r extensions path).run

end

/-- What loading files comes to, one after the other, until one fails. -/
inductive Loads (r : FileReader Id) : List String → Loader → Result (List Nat) → Loader → Prop
  | nil (l : Loader) : Loads r [] l (.ok []) l
  | circular {path : String} {rest : List String} {l : Loader} (hstack : keyOf r path ∈ l.stack) :
      Loads r (path :: rest) l (.error (l.circle path)) l
  | known {path : String} {rest : List String} {l l' : Loader} {ids : List Nat}
      {x : Result (List Nat)} (hstack : keyOf r path ∉ l.stack)
      (hknown : l.loaded.lookup (keyOf r path) = some ids) (hrest : Loads r rest l x l') :
      Loads r (path :: rest) l ((ids ++ ·) <$> x) l'
  | refused {path : String} {rest : List String} {l : Loader} {e : Error}
      (hstack : keyOf r path ∉ l.stack) (hnew : l.loaded.lookup (keyOf r path) = none)
      (hcontent : content r l.extensions path = .error e) :
      Loads r (path :: rest) l (.error e) l
  | failed {path : String} {rest parents : List String} {l l' : Loader} {values : List Value}
      {e : Error} (hstack : keyOf r path ∉ l.stack)
      (hnew : l.loaded.lookup (keyOf r path) = none)
      (hcontent : content r l.extensions path = .ok (values, parents))
      (hparents : Loads r parents (l.push (keyOf r path)) (.error e) l') :
      Loads r (path :: rest) l (.error e) l'.pop
  | loaded {path : String} {rest parents : List String} {l l₁ l' : Loader} {values : List Value}
      {ids : List Nat} {x : Result (List Nat)} (hstack : keyOf r path ∉ l.stack)
      (hnew : l.loaded.lookup (keyOf r path) = none)
      (hcontent : content r l.extensions path = .ok (values, parents))
      (hparents : Loads r parents (l.push (keyOf r path)) (.ok ids) l₁)
      (hrest : Loads r rest (l₁.pop.addFile (keyOf r path) path values ids) x l') :
      Loads r (path :: rest) l ((List.range' l₁.corpus.size values.length ++ ·) <$> x) l'

namespace Loads

variable {r : FileReader Id} {paths : List String} {l l' : Loader} {x : Result (List Nat)}

theorem stack_eq (h : Loads r paths l x l') : l'.stack = l.stack := by
  induction h with
  | nil | circular | refused => rfl
  | known _ _ _ ih => exact ih
  | failed _ _ _ _ ih => rw [pop, ih, push, List.dropLast_concat]
  | loaded _ _ _ _ _ ihp ih => rw [ih, addFile, pop, ihp, push, List.dropLast_concat]

theorem extensions_eq (h : Loads r paths l x l') : l'.extensions = l.extensions := by
  induction h with
  | nil | circular | refused => rfl
  | known _ _ _ ih => exact ih
  | failed _ _ _ _ ih => exact ih
  | loaded _ _ _ _ _ ihp ih => exact ih.trans ihp

/-- What loading comes to is determined. -/
theorem unique {l'' : Loader} {y : Result (List Nat)} (h : Loads r paths l x l')
    (h' : Loads r paths l y l'') : y = x ∧ l'' = l' := by
  induction h generalizing y l'' with
  | nil =>
    cases h'
    exact ⟨rfl, rfl⟩
  | circular hstack => cases h' <;> simp_all
  | known hstack hknown _ ih =>
    cases h' with
    | known _ hknown' hrest =>
      obtain rfl := Option.some.inj (hknown.symm.trans hknown')
      obtain ⟨rfl, rfl⟩ := ih hrest
      exact ⟨rfl, rfl⟩
    | circular | refused | failed | loaded => simp_all
  | refused hstack hnew hcontent => cases h' <;> simp_all
  | failed hstack hnew hcontent _ ih =>
    cases h' with
    | failed _ _ hcontent' hparents =>
      cases hcontent.symm.trans hcontent'
      obtain ⟨hx, rfl⟩ := ih hparents
      exact ⟨congrArg _ (Except.error.inj hx), rfl⟩
    | loaded _ _ hcontent' hparents =>
      cases hcontent.symm.trans hcontent'
      cases (ih hparents).1
    | circular | known | refused => simp_all
  | loaded hstack hnew hcontent _ _ ihp ih =>
    cases h' with
    | failed _ _ hcontent' hparents =>
      cases hcontent.symm.trans hcontent'
      cases (ihp hparents).1
    | loaded _ _ hcontent' hparents hrest =>
      cases hcontent.symm.trans hcontent'
      obtain ⟨hx, rfl⟩ := ihp hparents
      cases hx
      obtain ⟨rfl, rfl⟩ := ih hrest
      exact ⟨rfl, rfl⟩
    | circular | known | refused => simp_all
end Loads

/-! ## Runs of the loader -/

variable (r : FileReader Id)

section
variable (depth : Nat) (path : String) (l : Loader)

theorem loadAll_cons (load : String → Loader → Id (Result (List Nat) × Loader))
    (rest : List String) : loadAll load (path :: rest) l =
      match load path l with
      | (.error e, l) => (.error e, l)
      | (.ok ids, l) => ((ids ++ ·) <$> (loadAll load rest l).1, (loadAll load rest l).2) :=
  rfl

theorem loadAll_singleton (load : String → Loader → Id (Result (List Nat) × Loader)) :
    loadAll load [path] l = load path l := by
  rw [loadAll_cons]
  match load path l with
  | (.error e, l) => rfl
  | (.ok ids, l) => simp [loadAll, pure]

theorem loadWithin_succ : loadWithin r (depth + 1) path l =
    if l.stack.contains (keyOf r path) then (.error (l.circle path), l)
    else
      match l.loaded.lookup (keyOf r path) with
      | some ids => (.ok ids, l)
      | none =>
        match content r l.extensions path with
        | .error e => (.error e, l)
        | .ok (values, parents) =>
          match loadAll (loadWithin r depth) parents (l.push (keyOf r path)) with
          | (.error e, l) => (.error e, l.pop)
          | (.ok ids, l) =>
            (.ok (List.range' l.corpus.size values.length),
              l.pop.addFile (keyOf r path) path values ids) :=
  rfl

end

variable {r}

theorem readDocuments_of_content {extensions parents : List String} {path : String}
    {values : List Value} (h : content r extensions path = .ok (values, parents)) :
    readDocuments r path = .ok values := by
  change (match readDocuments r path with
    | .error e => .error e
    | .ok values => ((parentsOf r extensions path values).run.mapError
        (Error.defaultFile path)).map fun ps => (values, ps) :
      Result (List Value × List String)) = _ at h
  cases hread : readDocuments r path with
  | error e =>
    rw [hread] at h
    cases h
  | ok values' =>
    rw [hread] at h
    cases hparents : (parentsOf r extensions path values').run with
    | error e => simp [hparents, Except.mapError, Except.map] at h
    | ok ps =>
      simp only [hparents, Except.mapError, Except.map] at h
      cases h
      rfl

/-- The stack holds some of the files, each once, and the depth allows for more than all others. -/
structure Room (files : List String) (depth : Nat) (l : Loader) : Prop where
  nodup : l.stack.Nodup
  subset : l.stack ⊆ files
  lt : files.length < depth + l.stack.length

namespace Room

variable {files : List String} {l l' : Loader}

theorem not_zero (h : Room files 0 l) : False := by
  have hle := (List.subperm_of_subset h.nodup h.subset).length_le
  have hlt := h.lt
  omega

theorem push {key : String} (h : Room files (depth + 1) l) (hkey : key ∈ files)
    (hstack : key ∉ l.stack) : Room files depth (l.push key) := by
  refine ⟨?_, ?_, ?_⟩
  · simpa [Loader.push] using List.Nodup.concat hstack h.nodup
  · exact List.append_subset.mpr ⟨h.subset, List.cons_subset.mpr ⟨hkey, List.nil_subset _⟩⟩
  · have hlt := h.lt
    rw [Loader.push, List.length_append, List.length_singleton]
    omega

theorem of_stack_eq (h : Room files depth l) (hstack : l'.stack = l.stack) : Room files depth l' := by
  refine ⟨?_, ?_, ?_⟩
  · rw [hstack]
    exact h.nodup
  · rw [hstack]
    exact h.subset
  · rw [hstack]
    exact h.lt

end Room

/-- If no more files can be read than the depth allows besides those on the stack, then the loader
has a run without a limit. -/
theorem loads_loadAll {files : List String}
    (hfiles : ∀ path values, readDocuments r path = .ok values → keyOf r path ∈ files) :
    ∀ (depth : Nat) (paths : List String) (l : Loader), Room files depth l →
        Loads r paths l (loadAll (loadWithin r depth) paths l).1
          (loadAll (loadWithin r depth) paths l).2 := by
  intro depth
  induction depth with
  | zero => exact fun paths l hroom => hroom.not_zero.elim
  | succ depth ihdepth =>
    intro paths
    induction paths with
    | nil => exact fun l _ => .nil l
    | cons path rest ihrest =>
      intro l hroom
      rw [loadAll_cons, loadWithin_succ]
      by_cases hstack : keyOf r path ∈ l.stack
      · rw [if_pos (by simpa using hstack)]
        exact .circular hstack
      rw [if_neg (by simpa using hstack)]
      cases hlookup : l.loaded.lookup (keyOf r path) with
      | some ids => exact .known hstack hlookup (ihrest l hroom)
      | none =>
        cases hcontent : content r l.extensions path with
        | error e => exact .refused hstack hlookup hcontent
        | ok found =>
          obtain ⟨values, parents⟩ := found
          have hkey := hfiles path values (readDocuments_of_content hcontent)
          have hbelow := ihdepth parents (l.push (keyOf r path)) (hroom.push hkey hstack)
          cases hparents : loadAll (loadWithin r depth) parents (l.push (keyOf r path)) with
          | mk x l₁ =>
            rw [hparents] at hbelow
            simp only [hparents]
            cases x with
            | error e => exact .failed hstack hlookup hcontent hbelow
            | ok ids =>
              have hpopped : l₁.pop.stack = l.stack := by
                rw [pop, hbelow.stack_eq, push, List.dropLast_concat]
              exact .loaded hstack hlookup hcontent hbelow (ihrest _ (hroom.of_stack_eq hpopped))

end Overlay.Loader
