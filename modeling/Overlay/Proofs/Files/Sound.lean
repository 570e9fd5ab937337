import Mathlib
import Overlay.Proofs.Files.Identity

/-!
# What a loader holds

A loader numbers its documents in the order in which it adds them, and records which documents each
file has. That stays so whatever it is asked to load, and also if loading fails.
-/

namespace Overlay.Loader

/-! ## Recorded files -/

namespace Loads

variable {r : FileReader Id} {paths : List String} {l l' : Loader} {x : Result (List Nat)}

theorem stack_pop {key : String} (h : Loads r paths (l.push key) x l') : l'.pop.stack = l.stack := by
  rw [pop, h.stack_eq, push, List.dropLast_concat]

/-- A file whose ancestors are being loaded is not recorded meanwhile. -/
theorem lookup_of_mem_stack {key : String} (h : Loads r paths l x l') (hkey : key ∈ l.stack) :
    l'.loaded.lookup key = l.loaded.lookup key := by
  induction h with
  | nil | circular | refused => rfl
  | known _ _ _ ih => exact ih hkey
  | failed _ _ _ _ ih => exact ih (List.mem_append_left _ hkey)
  | loaded hstack _ _ hparents _ ihp ih =>
    have hne := ne_of_mem_of_not_mem hkey hstack
    rw [← hparents.stack_pop] at hkey
    rw [ih hkey, lookup_addFile_ne _ _ _ _ hne]
    exact ihp (List.mem_append_left _ (hparents.stack_pop ▸ hkey))

theorem lookup_self {key : String} (h : Loads r paths (l.push key) x l')
    (hnew : l.loaded.lookup key = none) : l'.loaded.lookup key = none :=
  (h.lookup_of_mem_stack (by simp [push])).trans hnew

/-- What is recorded stays recorded. -/
theorem lookup_of_lookup {key : String} {ids : List Nat} (h : Loads r paths l x l')
    (hids : l.loaded.lookup key = some ids) : l'.loaded.lookup key = some ids := by
  induction h with
  | nil | circular | refused => exact hids
  | known _ _ _ ih => exact ih hids
  | failed _ _ _ _ ih => exact ih hids
  | @loaded path _ _ _ _ _ _ _ _ _ hnew _ hparents _ ihp ih =>
    have hids₁ := ihp hids
    have hne : key ≠ keyOf r path := by
      rintro rfl
      rw [hparents.lookup_self hnew] at hids₁
      cases hids₁
    exact ih ((lookup_addFile_ne _ _ _ _ hne).trans hids₁)

/-- The documents that are returned are those recorded for the files. -/
theorem recorded {ids : List Nat} (h : Loads r paths l x l') (hx : x = .ok ids) :
    ∃ lists, ids = lists.flatten ∧
      List.Forall₂ (fun path ids => l'.loaded.lookup (keyOf r path) = some ids) paths lists := by
  induction h generalizing ids with
  | nil =>
    cases hx
    exact ⟨[], rfl, .nil⟩
  | circular | refused | failed => cases hx
  | @known _ _ _ _ _ x _ hknown hrest ih =>
    cases x with
    | error e => cases hx
    | ok others =>
      cases hx
      obtain ⟨lists, rfl, hlists⟩ := ih rfl
      exact ⟨_ :: lists, rfl, .cons (hrest.lookup_of_lookup hknown) hlists⟩
  | @loaded _ _ _ _ _ _ _ _ x _ _ _ _ hrest _ ih =>
    cases x with
    | error e => cases hx
    | ok others =>
      cases hx
      obtain ⟨lists, rfl, hlists⟩ := ih rfl
      exact ⟨_ :: lists, rfl, .cons (hrest.lookup_of_lookup (lookup_addFile_self ..)) hlists⟩

/-- A file that is recorded is not loaded again. -/
theorem eq_of_recorded {path : String} {ids : List Nat} (h : Loads r [path] l x l')
    (hstack : keyOf r path ∉ l.stack) (hids : l.loaded.lookup (keyOf r path) = some ids) :
    x = .ok ids ∧ l' = l := by
  cases h with
  | circular hmem => exact absurd hmem hstack
  | known _ hknown hrest =>
    cases hrest
    obtain rfl := Option.some.inj (hids.symm.trans hknown)
    exact ⟨congrArg _ (List.append_nil _), rfl⟩
  | refused _ hnew | failed _ hnew | loaded _ hnew =>
    rw [hids] at hnew
    cases hnew

end Loads

/-! ## Documents -/

/-- The documents of a loader are ordered, each after its parents, and every document is recorded
for one file. -/
structure Sound (l : Loader) : Prop where
  order : l.order = List.range l.corpus.size
  ordered : l.corpus.Ordered
  identities : (l.loaded.map Prod.fst).Nodup
  disjoint : (l.loaded.map Prod.snd).Pairwise List.Disjoint
  covers : ∀ id, id < l.corpus.size ↔ ∃ e ∈ l.loaded, id ∈ e.2

theorem sound_empty (extensions : List String) : Sound { extensions } := by
  refine ⟨rfl, fun id p hp => ?_, List.nodup_nil, List.Pairwise.nil, fun id => ?_⟩
  · cases hp
  · simp [Corpus.size]

namespace Sound

variable {l : Loader} (h : Sound l)
include h

theorem lt_size {key : String} {ids : List Nat} (hids : l.loaded.lookup key = some ids) {id : Nat}
    (hid : id ∈ ids) : id < l.corpus.size :=
  (h.covers id).mpr ⟨_, mem_of_lookup hids, hid⟩

theorem push (key : String) : Sound (l.push key) :=
  ⟨h.order, h.ordered, h.identities, h.disjoint, h.covers⟩

theorem pop : Sound l.pop :=
  ⟨h.order, h.ordered, h.identities, h.disjoint, h.covers⟩

theorem addFile {key : String} (hnew : l.loaded.lookup key = none) (path : String)
    (values : List Value) {parents : List Nat} (hparents : ∀ p ∈ parents, p < l.corpus.size) :
    Sound (l.addFile key path values parents) := by
  refine ⟨order_addFile _ _ _ _ h.order, fun id p hp => ?_, ?_, ?_, fun id => ?_⟩
  · rw [corpus_addFile, Evaluation.mem_parents_addLayer] at hp
    rcases hp with hp | ⟨hle, -, hp⟩
    · exact h.ordered id p hp
    · exact (hparents p hp).trans_le hle
  · refine List.nodup_cons.mpr ⟨fun hmem => ?_, h.identities⟩
    obtain ⟨e, he, rfl⟩ := List.mem_map.mp hmem
    simpa using List.lookup_eq_none_iff.mp hnew e he
  · refine List.pairwise_cons.mpr ⟨fun ids hids id hid hid' => ?_, h.disjoint⟩
    obtain ⟨e, he, rfl⟩ := List.mem_map.mp hids
    have hlt := (h.covers id).mpr ⟨e, he, hid'⟩
    have hle := (List.mem_range'_1.mp hid).1
    omega
  · have hnew : (∃ e ∈ (l.addFile key path values parents).loaded, id ∈ e.2) ↔
        id ∈ List.range' l.corpus.size values.length ∨ ∃ e ∈ l.loaded, id ∈ e.2 := by
      simp [Loader.addFile]
    rw [hnew, size_addFile, ← h.covers id, List.mem_range'_1]
    omega

end Sound

/-- No file whose ancestors are being loaded is recorded. -/
def Pending (l : Loader) : Prop :=
  ∀ key ∈ l.stack, l.loaded.lookup key = none

namespace Pending

variable {l : Loader} (h : Pending l) {key : String}
include h

theorem push (hnew : l.loaded.lookup key = none) : Pending (l.push key) := by
  intro other hother
  rcases List.mem_append.mp hother with hother | hother
  · exact h other hother
  · exact List.mem_singleton.mp hother ▸ hnew

theorem pop : Pending l.pop :=
  fun other hother => h other (List.dropLast_subset _ hother)

theorem addFile (hkey : key ∉ l.stack) (path : String) (values : List Value) (parents : List Nat) :
    Pending (l.addFile key path values parents) := by
  intro other hother
  rw [lookup_addFile_ne _ _ _ _ (ne_of_mem_of_not_mem hother hkey)]
  exact h other hother

end Pending

namespace Loads

variable {r : FileReader Id} {paths : List String} {l l' : Loader} {x : Result (List Nat)}

theorem pending (h : Loads r paths l x l') (hl : Pending l) : Pending l' := by
  intro key hkey
  rw [h.stack_eq] at hkey
  exact (h.lookup_of_mem_stack hkey).trans (hl key hkey)

theorem lt_size {ids : List Nat} (h : Loads r paths l (.ok ids) l') (hl' : Sound l') :
    ∀ id ∈ ids, id < l'.corpus.size := by
  intro id hid
  obtain ⟨lists, rfl, hlists⟩ := h.recorded rfl
  obtain ⟨list, hlist, hid⟩ := List.mem_flatten.mp hid
  obtain ⟨i, hi, rfl⟩ := List.getElem_of_mem hlist
  exact hl'.lt_size (hlists.get (hlists.length_eq ▸ hi) hi) hid

theorem sound (h : Loads r paths l x l') (hl : Sound l) (hpending : Pending l) : Sound l' := by
  induction h with
  | nil | circular | refused => exact hl
  | known _ _ _ ih => exact ih hl hpending
  | failed _ hnew _ _ ih => exact (ih (hl.push _) (hpending.push hnew)).pop
  | @loaded path _ _ _ _ _ values _ _ hstack hnew _ hparents _ ihp ih =>
    have hpushed := hpending.push hnew
    have hl₁ := ihp (hl.push _) hpushed
    have hadded := hl₁.pop.addFile (hparents.lookup_self hnew) path values (hparents.lt_size hl₁)
    refine ih hadded ((hparents.pending hpushed).pop.addFile ?_ path values _)
    rwa [hparents.stack_pop]

end Loads

/-! ## Calls one after the other -/

/-- Loads files one after the other, also after one that fails. -/
def loadEach {m : Type → Type} [Monad m] (r : FileReader m) : List String → Loader → m Loader
  | [], l => return l
  | path :: rest, l => do
    let (_, l) ← load r path l
    loadEach r rest l

section
variable (t : FileTree) {bound : Nat} (hbound : t.nodes.length ≤ bound)
include hbound

theorem sound_load (path : String) {l : Loader} (hstack : l.stack = []) (hl : Sound l) :
    ∃ x l', load (FileTree.reader bound) path l t = ((x, l'), t) ∧
      Loads t.answers [path] l x l' ∧ l'.stack = [] ∧ Sound l' := by
  obtain ⟨x, l', hload, hloads⟩ := loads_load t hbound path hstack
  have hpending : Pending l := by simp [Pending, hstack]
  exact ⟨x, l', hload, hloads, hloads.stack_eq.trans hstack, hloads.sound hl hpending⟩

theorem sound_loadEach : ∀ (paths : List String) {l : Loader}, l.stack = [] → Sound l →
    ∃ l', loadEach (FileTree.reader bound) paths l t = (l', t) ∧ l'.stack = [] ∧ Sound l'
  | [], l, hstack, hl => ⟨l, rfl, hstack, hl⟩
  | path :: rest, l, hstack, hl => by
    obtain ⟨x, l₁, hload, -, hstack₁, hl₁⟩ := sound_load t hbound path hstack hl
    obtain ⟨l', hrest, hstack', hl'⟩ := sound_loadEach rest hstack₁ hl₁
    exact ⟨l', (run_bind hload).trans hrest, hstack', hl'⟩

/-- Whatever a loader was asked to load before, a call leaves no file on the stack and the loader
sound. If it succeeds, it returns the documents recorded for the file, which is not loaded again if
it has been loaded before. -/
theorem load_after_loadEach (extensions paths : List String) (path : String) :
    let key := (identity (FileTree.reader bound) path t).1
    ∃ l x l', loadEach (FileTree.reader bound) paths { extensions } t = (l, t) ∧
      load (FileTree.reader bound) path l t = ((x, l'), t) ∧
      (l.stack = [] ∧ Sound l) ∧ (l'.stack = [] ∧ Sound l') ∧
      (∀ ids, x = .ok ids → l'.loaded.lookup key = some ids) ∧
      ∀ ids, l.loaded.lookup key = some ids → x = .ok ids ∧ l' = l := by
  intro key
  obtain ⟨l, hbefore, hstack, hl⟩ := sound_loadEach t hbound paths rfl (sound_empty extensions)
  obtain ⟨x, l', hload, hloads, hstack', hl'⟩ := sound_load t hbound path hstack hl
  have hkey : key = keyOf t.answers path := congrArg Prod.fst (identity_settles t bound path)
  refine ⟨l, x, l', hbefore, hload, ⟨hstack, hl⟩, ⟨hstack', hl'⟩, fun ids hx => ?_, fun ids hids => ?_⟩
  · obtain ⟨lists, rfl, hlists⟩ := hloads.recorded hx
    obtain ⟨list, others, hlist, hothers, rfl⟩ := List.forall₂_cons_left_iff.mp hlists
    obtain rfl := List.forall₂_nil_left_iff.mp hothers
    simpa [hkey] using hlist
  · exact hloads.eq_of_recorded (by simp [hstack]) (hkey ▸ hids)

end

/-- A tree where the second parent of `a.json` is the file itself. -/
def ownParent : FileTree :=
  ⟨"/home", [(["home", "b.json"], .file "1".toUTF8), (["home", "a.json"],
    .file "\x7b\"$parent\": [\"/home/b.json\", \"a.json\"]\x7d".toUTF8)]⟩

/-- The file that is its own parent is not loaded, but its other parent is, and not again later. -/
theorem load_after_loadEach_of_ownParent :
    let l : Loader := { extensions := ["json"] }
    let l₁ : Loader := { l with
      corpus := ⟨[⟨"/home/b.json#0", .int 1, []⟩]⟩, order := [0], loaded := [("/home/b.json", [0])] }
    load (FileTree.reader 2) "a.json" l ownParent =
        ((.error (.about (.circularParents ["/home/a.json", "a.json"]) "a.json"), l₁), ownParent) ∧
      load (FileTree.reader 2) "b.json" l₁ ownParent = ((.ok [0], l₁), ownParent) ∧
      l₁.stack = [] ∧ Sound l₁ := by
  intro l l₁
  have hbound : ownParent.nodes.length ≤ 2 := by decide
  have ha : keyOf ownParent.answers "a.json" = "/home/a.json" := by cbv
  have hb : keyOf ownParent.answers "b.json" = "/home/b.json" := by cbv
  have hb' : keyOf ownParent.answers "/home/b.json" = "/home/b.json" := by cbv
  have hload : load (FileTree.reader 2) "a.json" l ownParent =
      ((.error (.about (.circularParents ["/home/a.json", "a.json"]) "a.json"), l₁), ownParent) := by
    have hcontent : content ownParent.answers ["json"] "a.json" = .ok
        ([.map [("$parent", .list [.string "/home/b.json", .string "a.json"])]],
          ["/home/b.json", "a.json"]) := by
      cbv
    have hparent : content ownParent.answers ["json"] "/home/b.json" = .ok ([.int 1], []) := by cbv
    have hrun : Loads ownParent.answers ["a.json"] l (.error _) _ :=
      .failed (by simp [l]) rfl hcontent <|
        .loaded (by simp [l, push, ha, hb']) rfl hparent (.nil _) <|
          .circular (by simp [push, pop, addFile, ha])
    obtain ⟨x, l', hload, hloads⟩ := loads_load ownParent hbound "a.json" (l := l) rfl
    obtain ⟨rfl, rfl⟩ := hrun.unique hloads
    rw [hload, ha, hb']
    rfl
  obtain ⟨_, x, l₂, hbefore, hload₂, hsound, -, -, hknown⟩ :=
    load_after_loadEach ownParent hbound ["json"] ["a.json"] "b.json"
  obtain rfl : l₁ = _ := congrArg Prod.fst ((run_bind hload).symm.trans hbefore)
  have hkey : (identity (FileTree.reader 2) "b.json" ownParent).1 = "/home/b.json" :=
    (congrArg Prod.fst (identity_settles ownParent 2 "b.json")).trans hb
  obtain ⟨rfl, rfl⟩ := hknown [0] (by rw [hkey]; rfl)
  exact ⟨hload, hload₂, hsound⟩

end Overlay.Loader
